import Mathlib
import ContractBindings.FileSystem.Path
import ContractBindings.Proofs.Text.Separated

/-!
# How paths are spelled

The operations on paths are operations on their pieces:

* `pieces_join`: joining a name appends a piece, in the place of an empty one behind a slash at the
  end;
* `pieces_withFileName`: another file name replaces the last piece, and drops silent pieces before it;
* `components_eq`: the components are the pieces that are not silent, behind a mark for the start.

`place` is what a path says beyond a leading `./`.
-/

set_option autoImplicit false

namespace ContractBindings.Path

open Text

/-- A name that an entry of a directory can have. -/
structure IsName (n : Name) : Prop where
  ne_nil : n ≠ []
  ne_dot : n ≠ [dot]
  ne_dots : n ≠ [dot, dot]
  no_separator : separator ∉ n
  no_nul : (0 : UInt8) ∉ n

instance (n : Name) : Decidable (IsName n) :=
  decidable_of_iff
    (n ≠ [] ∧ n ≠ [dot] ∧ n ≠ [dot, dot] ∧ separator ∉ n ∧ (0 : UInt8) ∉ n)
    ⟨fun h => ⟨h.1, h.2.1, h.2.2.1, h.2.2.2.1, h.2.2.2.2⟩,
      fun h => ⟨h.ne_nil, h.ne_dot, h.ne_dots, h.no_separator, h.no_nul⟩⟩

/-! ## Pieces -/

theorem splitPieces_eq (b : Bytes) : splitPieces b = between separator b := by
  induction b with
  | nil => rfl
  | cons a b ih =>
    by_cases h : a = separator
    · simp [splitPieces, between, h, ih]
    · obtain ⟨piece, pieces, hx⟩ := List.exists_cons_of_ne_nil (between_ne_nil separator b)
      rw [between_cons_of_ne h hx]
      simp [splitPieces, h, ih, hx]

theorem pieces_eq (p : Path) : p.pieces = between separator p.bytes := splitPieces_eq p.bytes

theorem pieces_ne_nil (p : Path) : p.pieces ≠ [] := by
  rw [pieces_eq]; exact between_ne_nil _ _

theorem no_separator_of_mem_pieces {p : Path} {piece : Bytes} (h : piece ∈ p.pieces) :
    separator ∉ piece := by
  rw [pieces_eq] at h; exact not_mem_of_mem_between piece h

theorem mem_bytes_iff {p : Path} {b : UInt8} (h : b ≠ separator) :
    b ∈ p.bytes ↔ ∃ piece ∈ p.pieces, b ∈ piece := by
  rw [pieces_eq]; exact mem_between_iff h p.bytes

theorem pieces_mk {n : Bytes} (h : separator ∉ n) : (Path.mk n).pieces = [n] := by
  rw [pieces_eq]; exact between_of_not_mem h

theorem joinPieces_cons {piece : Bytes} {pieces : List Bytes} (h : pieces ≠ []) :
    joinPieces (piece :: pieces) = piece ++ separator :: joinPieces pieces := by
  cases pieces with
  | nil => exact absurd rfl h
  | cons next rest => rfl

theorem joinPieces_between (b : Bytes) : joinPieces (between separator b) = b := by
  induction b using between_induction (s := separator) with
  | last b hb => rw [between_of_not_mem hb]; rfl
  | more a b ha ih =>
    rw [between_append, between_of_not_mem ha, List.singleton_append,
      joinPieces_cons (between_ne_nil _ _), ih]

theorem joinPieces_pieces (p : Path) : joinPieces p.pieces = p.bytes := by
  rw [pieces_eq]; exact joinPieces_between p.bytes

theorem between_joinPieces : ∀ {pieces : List Bytes}, pieces ≠ [] → (∀ q ∈ pieces, separator ∉ q) →
    between separator (joinPieces pieces) = pieces
  | [], h, _ => absurd rfl h
  | [piece], _, h => between_of_not_mem (h piece (by simp))
  | piece :: next :: rest, _, h => by
    rw [joinPieces_cons (by simp), between_append, between_of_not_mem (h piece (by simp)),
      between_joinPieces (by simp) (fun q hq => h q (List.mem_cons_of_mem _ hq))]
    rfl

theorem isAbsolute_iff {p : Path} : p.isAbsolute = true ↔ ∃ rest, rest ≠ [] ∧ p.pieces = [] :: rest := by
  rw [pieces_eq]
  unfold isAbsolute
  cases hb : p.bytes with
  | nil => simp [between]
  | cons a b =>
    by_cases h : a = separator
    · subst h
      simp [between_cons_self, between_ne_nil]
    · obtain ⟨piece, pieces, hx⟩ := List.exists_cons_of_ne_nil (between_ne_nil separator b)
      rw [between_cons_of_ne h hx]
      simp [h]

/-- Where a path starts can be read off its first piece, unless there is no other. -/
theorem isAbsolute_congr {p q : Path} {first : Bytes} {ps qs : List Bytes} (hp : p.pieces = first :: ps)
    (hq : q.pieces = first :: qs) (hps : ps ≠ []) (hqs : qs ≠ []) : p.isAbsolute = q.isAbsolute := by
  rw [Bool.eq_iff_iff, isAbsolute_iff, isAbsolute_iff, hp, hq]
  simp [hps, hqs]

theorem isAbsolute_mk {n : Bytes} (h : separator ∉ n) : (Path.mk n).isAbsolute = false := by
  rw [Bool.eq_false_iff, Ne, isAbsolute_iff, pieces_mk h]
  rintro ⟨rest, hne, he⟩
  cases he
  exact hne rfl

/-! ## Joining -/

theorem bytes_join {p : Path} {n : Bytes} (hp : p.bytes ≠ []) (hn : separator ∉ n) :
    (p.join ⟨n⟩).bytes =
      if p.bytes.getLast? = some separator then p.bytes ++ n else p.bytes ++ separator :: n := by
  unfold join isEmpty
  rw [isAbsolute_mk hn]
  simp only [Bool.false_eq_true, if_false, List.isEmpty_iff, hp]
  split <;> rfl

/-- Joining a name appends it as a piece; an empty piece at the end makes room for it. -/
theorem pieces_join {p : Path} (hp : p.bytes ≠ []) :
    ∃ ps, ps ≠ [] ∧ (p.pieces = ps ∨ p.pieces = ps ++ [[]]) ∧
      ∀ n, separator ∉ n → (p.join ⟨n⟩).pieces = ps ++ [n] := by
  by_cases h : p.bytes.getLast? = some separator
  · obtain ⟨b, hb⟩ := List.getLast?_eq_some_iff.mp h
    refine ⟨between separator b, between_ne_nil _ _, Or.inr ?_, fun n hn => ?_⟩
    · rw [pieces_eq, hb, between_append]; rfl
    · rw [pieces_eq, bytes_join hp hn, if_pos h, hb, List.append_assoc, List.singleton_append,
        between_append, between_of_not_mem hn]
  · refine ⟨p.pieces, pieces_ne_nil p, Or.inl rfl, fun n hn => ?_⟩
    rw [pieces_eq, pieces_eq, bytes_join hp hn, if_neg h, between_append, between_of_not_mem hn]

theorem join_ne_nil {p : Path} {n : Bytes} (hp : p.bytes ≠ []) (hn : separator ∉ n) :
    (p.join ⟨n⟩).bytes ≠ [] := by
  rw [bytes_join hp hn]; split <;> simp [hp]

theorem isAbsolute_join {p : Path} {n : Bytes} (hp : p.bytes ≠ []) (hn : separator ∉ n) :
    (p.join ⟨n⟩).isAbsolute = p.isAbsolute := by
  unfold isAbsolute
  rw [bytes_join hp hn]
  split <;> rw [List.head?_append_of_ne_nil _ hp]

theorem mem_bytes_join {p : Path} {n : Bytes} {b : UInt8} (hp : p.bytes ≠ []) (hn : separator ∉ n)
    (hb : b ≠ separator) : b ∈ (p.join ⟨n⟩).bytes ↔ b ∈ p.bytes ∨ b ∈ n := by
  rw [bytes_join hp hn]; split <;> simp [hb]

/-! ## Components -/

theorem isSilent_iff {piece : Bytes} : isSilent piece = true ↔ piece = [] ∨ piece = [dot] := by
  simp [isSilent]

theorem component?_eq_none_iff {piece : Bytes} : component? piece = none ↔ isSilent piece = true := by
  unfold component?
  split
  · rename_i h; simp [h]
  · rename_i h; split <;> simp [h]

theorem component?_of_isName {n : Name} (h : IsName n) : component? n = some (.normal n) := by
  have hs : isSilent n = false := by
    rw [Bool.eq_false_iff, Ne, isSilent_iff, not_or]; exact ⟨h.ne_nil, h.ne_dot⟩
  simp [component?, hs, h.ne_dots]

/-- What a path says about its place: where it starts and its components, without a leading `.`. -/
def place (p : Path) : List Component :=
  (if p.isAbsolute then [.root] else []) ++ p.pieces.filterMap component?

/-- A relative path that begins with `.` has a component for it, and all else is its place. -/
theorem components_eq (p : Path) :
    p.components = (if p.pieces.head? = some [dot] then [.current] else []) ++ p.place := by
  unfold components place
  cases hp : p.pieces with
  | nil => exact absurd hp (pieces_ne_nil p)
  | cons first rest =>
    by_cases ha : p.isAbsolute = true
    · obtain ⟨rest', _, hr⟩ := isAbsolute_iff.mp ha
      rw [hp] at hr
      cases hr
      simp [ha, component?, isSilent]
    · by_cases hd : first = [dot]
      · subst hd
        simp [ha, component?, isSilent]
      · simp only [ha, hd, List.head?_cons, List.filterMap_cons, Option.some.injEq]
        cases component? first <;> simp

theorem place_mk {n : Bytes} (h : separator ∉ n) : (Path.mk n).place = (component? n).toList := by
  unfold place
  rw [isAbsolute_mk h, pieces_mk h]
  cases hc : component? n <;> simp [hc]

theorem place_join {p : Path} {n : Bytes} (hp : p.bytes ≠ []) (hn : separator ∉ n) :
    (p.join ⟨n⟩).place = p.place ++ (component? n).toList := by
  obtain ⟨ps, _, hps, hj⟩ := pieces_join hp
  have hsame : p.pieces.filterMap component? = ps.filterMap component? := by
    rcases hps with h | h <;> rw [h]
    simp [component?, isSilent]
  unfold place
  rw [isAbsolute_join hp hn, hj n hn, hsame, List.filterMap_append, List.append_assoc]
  cases hc : component? n <;> simp [hc]

theorem current_not_mem_place (p : Path) : Component.current ∉ p.place := by
  have hpiece : ∀ piece, component? piece ≠ some .current := by
    intro piece
    unfold component?
    split
    · simp
    · split <;> simp
  unfold place
  rw [List.mem_append, not_or, List.mem_filterMap]
  exact ⟨by split <;> simp, fun ⟨piece, _, h⟩ => hpiece piece h⟩

theorem filter_components (p : Path) : p.components.filter (· != .current) = p.place := by
  have hplace : p.place.filter (· != .current) = p.place := by
    rw [List.filter_eq_self]
    intro c hc
    have : c ≠ .current := fun e => current_not_mem_place p (e ▸ hc)
    simpa using this
  rw [components_eq, List.filter_append, hplace]
  split <;> simp

/-- The components of a path say its place. -/
theorem place_congr {p q : Path} (h : p.components = q.components) : p.place = q.place := by
  rw [← filter_components p, h, filter_components q]

/-- What stands below a directory also stands below its place. -/
theorem place_isPrefix {p directory : Path} (h : p.startsWith directory = true) :
    directory.place <+: p.place := by
  have hprefix : directory.components <+: p.components := List.isPrefixOf_iff_prefix.mp h
  rw [← filter_components directory, ← filter_components p]
  exact hprefix.filter _

end ContractBindings.Path
