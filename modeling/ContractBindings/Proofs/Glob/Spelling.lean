import ContractBindings.Proofs.FileSystem.Arrival
import ContractBindings.Proofs.Glob.Escaping

/-!
# How a search spells what it finds

A search names an entry by the path of its directory and the name (`below`), except that the entries of
the current directory go by their names alone.

* `locate_below`: either way the path leads to the entry, unless the name is empty and the directory is
  the current one;
* `spelled?` is the path of a directory as a search reaches it, piece by piece;
* `spelled?_of_arrives`, `spelled?_of_blind`: that is a path to the same directory, and at the same place,
  unless the directory is spelled with an empty piece right behind a leading `.`.
-/

set_option autoImplicit false

namespace ContractBindings.Glob

open Text ContractBindings.Path FileSystem

variable {fs fs' : FileSystem}

/-! ## Entries of a directory -/

theorem isCurrent_iff {p : Path} :
    isCurrent p = true ↔ p.pieces.head? = some [dot] ∧ p.place = [] := by
  rw [isCurrent, beq_iff_eq, components_eq]
  split
  · rename_i h; simp [h]
  · rename_i h
    simp only [List.nil_append, h, false_and, iff_false]
    intro hp
    exact current_not_mem_place p (by rw [hp]; simp)

theorem isCurrent_mk {n : Bytes} (hn : separator ∉ n) : isCurrent ⟨n⟩ = true ↔ n = [dot] := by
  rw [isCurrent_iff, pieces_mk hn, place_mk hn]
  constructor
  · rintro ⟨h, _⟩
    simpa using h
  · rintro rfl
    exact ⟨rfl, rfl⟩

theorem isCurrent_join {p : Path} {n : Bytes} (hp : p.bytes ≠ []) (hn : separator ∉ n)
    (h : isCurrent p = false) : isCurrent (p.join ⟨n⟩) = false := by
  rw [Bool.eq_false_iff, Ne, isCurrent_iff] at h ⊢
  rintro ⟨hhead, hplace⟩
  obtain ⟨ps, hps, hpieces, hj⟩ := pieces_join hp
  obtain ⟨first, rest, rfl⟩ := List.exists_cons_of_ne_nil hps
  rw [place_join hp hn, List.append_eq_nil_iff] at hplace
  rw [hj n hn] at hhead
  refine h ⟨?_, hplace.1⟩
  rcases hpieces with hq | hq <;> rw [hq] <;> exact hhead

/-- The current directory, however it is spelled, is where relative paths start. -/
theorem eq_of_isCurrent (hfs : fs.IsNested) {p : Path} {k : Nat} {l : Location} (h : fs.Leads p k l)
    (hc : isCurrent p = true) : k = maxLinks ∧ l = fs.workingDirectory := by
  obtain ⟨hhead, hplace⟩ := isCurrent_iff.mp hc
  have hrel : p.isAbsolute = false := by
    rw [Bool.eq_false_iff]
    intro ha
    simp [place, ha] at hplace
  have hsilent : ∀ s ∈ p.pieces, isSilent s = true := by
    intro s hs
    rw [place, hrel] at hplace
    exact component?_eq_none_iff.mp ((List.filterMap_eq_nil_iff.mp (by simpa using hplace)) s hs)
  have ho : fs.origin p = fs.workingDirectory := by simp [origin, hrel]
  rw [← ho]
  exact h.unique (leads_of_silent hfs h.no_nul h.ne_nil hsilent)

theorem bytes_below_ne_nil {p : Path} {n : Bytes} (hp : p.bytes ≠ []) (hn : separator ∉ n)
    (hne : isCurrent p = true → n ≠ []) : (below p n).bytes ≠ [] := by
  unfold below
  split
  · rename_i h; exact hne h
  · exact join_ne_nil hp hn

theorem place_below {p : Path} {n : Bytes} (hp : p.bytes ≠ []) (hn : separator ∉ n) :
    (below p n).place = p.place ++ (component? n).toList := by
  unfold below
  split
  · rename_i h
    rw [(isCurrent_iff.mp h).2, place_mk hn, List.nil_append]
  · exact place_join hp hn

theorem isCurrent_below {p : Path} {n : Bytes} (hp : p.bytes ≠ []) (hn : separator ∉ n) :
    isCurrent (below p n) = true ↔ isCurrent p = true ∧ n = [dot] := by
  unfold below
  split
  · rename_i h; simp [h, isCurrent_mk hn]
  · rename_i h
    rw [Bool.not_eq_true] at h
    simp [h, isCurrent_join hp hn h]

theorem pieces_below {p : Path} (hp : p.bytes ≠ []) :
    ∃ ps, ∀ n, separator ∉ n → (below p n).pieces = ps ++ [n] := by
  unfold below
  split
  · exact ⟨[], fun n hn => pieces_mk hn⟩
  · obtain ⟨ps, _, _, hj⟩ := pieces_join hp
    exact ⟨ps, hj⟩

/-- A zero byte in a name is one in the path of the entry. -/
theorem nul_mem_below {p : Path} {n : Bytes} (hp : p.bytes ≠ []) (hn : separator ∉ n)
    (h0 : (0 : UInt8) ∈ n) : (0 : UInt8) ∈ (below p n).bytes := by
  unfold below
  split
  · exact h0
  · exact (mem_bytes_join hp hn (by decide)).mpr (Or.inr h0)

/-- A name alone is a path from where relative paths start. -/
theorem origin_mk {n : Bytes} (hn : separator ∉ n) : fs.origin ⟨n⟩ = fs.workingDirectory := by
  rw [origin, isAbsolute_mk hn]
  rfl

section Below

variable (hfs : fs.IsNested) {p : Path} {k : Nat} {l : Location} (h : fs.Leads p k l) {n : Bytes}
  (hn : separator ∉ n) (h0 : (0 : UInt8) ∉ n) (hne : isCurrent p = true → n ≠ [])
include hfs h hn h0 hne

/-- **The path of an entry is one step from its directory.** -/
theorem locate_below_of_leads (follow : Bool) :
    fs.locate follow (below p n) = fs.walk follow k l [stepOfPiece n] := by
  unfold below
  split
  · rename_i hc
    obtain ⟨rfl, rfl⟩ := eq_of_isCurrent hfs h hc
    rw [locate_eq_walk h0 (hne hc), origin_mk hn, steps, pieces_mk hn]
    rfl
  · exact h.locate_join hn h0 follow

/-- The path of an entry leads where the step to its name arrives. -/
theorem leads_below {k' : Nat} {l' : Location} (hstep : fs.Arrives k l [stepOfPiece n] k' l') :
    fs.Leads (below p n) k' l' := by
  unfold below
  split
  · rename_i hc
    obtain ⟨rfl, rfl⟩ := eq_of_isCurrent hfs h hc
    obtain ⟨ps, _, hpieces, hj⟩ := pieces_join (p := ⟨n⟩) (hne hc)
    refine ⟨h0, hne hc, ps, hpieces, hj, ?_⟩
    rw [pieces_mk hn] at hpieces
    rcases hpieces with rfl | hempty
    · rw [origin_mk hn]
      exact hstep
    · have hlast : [] ++ [n] = ps ++ [[]] := hempty
      exact absurd (List.cons.inj (List.append_inj' hlast rfl).2).1 (hne hc)
  · exact h.join hn h0 hstep

end Below

/-- Without links it does not matter how many may be entered. -/
theorem locate_below (hfs : fs.IsPlainTree) {p : Path} {l : Location} (h : fs.Denotes p l)
    {n : Bytes} (hn : separator ∉ n) (h0 : (0 : UInt8) ∉ n) (hne : isCurrent p = true → n ≠ [])
    (follow : Bool) : fs.locate follow (below p n) = fs.route l [stepOfPiece n] := by
  obtain ⟨k, hk⟩ := exists_leads h
  rw [locate_below_of_leads hfs.isNested hk hn h0 hne]
  cases k <;> exact walkFrom_eq_route hfs _ _ _ _

theorem denotes_below (hfs : fs.IsPlainTree) {p : Path} {l : Location} (h : fs.Denotes p l)
    {n : Name} (he : fs.entryAt? (l ++ [n]) ≠ none) : fs.Denotes (below p n) (l ++ [n]) := by
  have hn := hfs.named l n he
  unfold Denotes
  rw [locate_below hfs h hn.no_separator hn.no_nul (fun _ => hn.ne_nil), stepOfPiece_of_isName hn,
    route_down_some hfs he, route_nil]

/-- Whether an entry is there, for a name that is no special one. -/
theorem lookup_below (hfs : fs.IsPlainTree) {p : Path} {l : Location} (h : fs.Denotes p l)
    (hd : fs.isDirectoryAt l = true) {n : Bytes} (hn : separator ∉ n) (hne : n ≠ [])
    (hdot : n ≠ [dot]) (hdots : n ≠ [dot, dot]) :
    (fs.lookup false (below p n)).toBool = true ↔ fs.entryAt? (l ++ [n]) ≠ none := by
  by_cases h0 : (0 : UInt8) ∈ n
  · have hnul := nul_mem_below h.ne_nil hn h0
    constructor
    · intro hl
      simp [lookup, locate, hnul, Except.toBool] at hl
    · intro he
      exact absurd h0 (hfs.named l n he).no_nul
  · have hstep : stepOfPiece n = .down n := by simp [stepOfPiece, hne, hdot, hdots]
    unfold lookup
    rw [locate_below hfs h hn h0 (fun _ => hne), hstep]
    cases he : fs.entryAt? (l ++ [n]) with
    | none =>
      rw [route_down_none hd he]
      simp [Except.toBool]
    | some e =>
      rw [route_down_some hfs (by simp [he])]
      simp [he, Except.toBool]

/-! ## Directories -/

/-- The path of a directory as a search reaches it; nothing if the search does not get there. -/
def spelled? (fs : FileSystem) : Path → List Bytes → Option Path
  | p, [] => if fs.isDirectory p then some p else none
  | p, n :: names =>
    if fs.isDirectory p && (specialNames.contains n || (fs.lookup false (below p n)).toBool) then
      spelled? fs (below p n) names
    else none

theorem spelled?_eq_some {p q : Path} {names : List Bytes} (h : spelled? fs p names = some q) :
    fs.isDirectory q = true := by
  induction names generalizing p with
  | nil =>
    rw [spelled?] at h
    split at h
    · rename_i hd; cases h; exact hd
    · cases h
  | cons n names ih =>
    rw [spelled?] at h
    split at h
    · exact ih h
    · cases h

theorem contains_specialNames_iff {n : Name} :
    specialNames.contains n = true ↔ n = [dot] ∨ n = [dot, dot] := by
  simp [specialNames]

theorem lookup_toBool_iff {follow : Bool} {p : Path} :
    (fs.lookup follow p).toBool = true ↔
      ∃ l, fs.locate follow p = .ok (.found l) ∧ fs.entryAt? l ≠ none := by
  constructor
  · intro h
    cases hl : fs.lookup follow p with
    | error e => rw [hl] at h; cases h
    | ok e =>
      obtain ⟨l, hlocate, he⟩ := lookup_eq_ok_iff.mp hl
      exact ⟨l, hlocate, by simp [he]⟩
  · rintro ⟨l, hlocate, he⟩
    obtain ⟨e, he⟩ := Option.ne_none_iff_exists'.mp he
    rw [lookup_eq_ok_iff.mpr ⟨l, hlocate, he⟩]
    rfl

theorem locate_follow (hfs : fs.IsPlainTree) (follow : Bool) {p : Path} {l : Location} :
    fs.locate follow p = .ok (.found l) ↔ fs.Denotes p l := by
  by_cases h0 : (0 : UInt8) ∈ p.bytes
  · simp [Denotes, locate, h0]
  · by_cases hp : p.bytes = []
    · simp [Denotes, locate, isEmpty, hp]
    · rw [Denotes, locate_eq_route hfs follow h0 hp, locate_eq_route hfs true h0 hp]

/-- What a search reaches, it reaches in every tree with more entries. -/
theorem spelled?_mono (hfs : fs.IsPlainTree) (hfs' : fs'.IsPlainTree) (hg : fs.Grows fs') {p q : Path}
    {names : List Bytes} (h : spelled? fs p names = some q) : spelled? fs' p names = some q := by
  have hdir : ∀ p, fs.isDirectory p = true → fs'.isDirectory p = true := by
    intro p hp
    obtain ⟨l, hl, hd⟩ := isDirectory_iff.mp hp
    exact isDirectory_iff.mpr ⟨l, hl.mono hfs hfs' hg, hg.directory l hd⟩
  have hlook : ∀ p, (fs.lookup false p).toBool = true → (fs'.lookup false p).toBool = true := by
    intro p hp
    obtain ⟨l, hl, he⟩ := lookup_toBool_iff.mp hp
    have hm := ((locate_follow hfs false).mp hl).mono hfs hfs' hg
    exact lookup_toBool_iff.mpr ⟨l, (locate_follow hfs' false).mpr hm, hg.entry l he⟩
  induction names generalizing p with
  | nil =>
    rw [spelled?] at h ⊢
    split at h
    · rename_i hd; rw [if_pos (hdir p hd)]; exact h
    · cases h
  | cons n names ih =>
    rw [spelled?] at h ⊢
    split at h
    · rename_i hc
      rw [Bool.and_eq_true, Bool.or_eq_true] at hc
      rw [if_pos]
      · exact ih h
      · rw [Bool.and_eq_true, Bool.or_eq_true]
        exact ⟨hdir p hc.1, hc.2.imp_right (hlook _)⟩
    · cases h

/-- A search for a directory fails right behind `./` if no name follows there. -/
theorem spelled?_of_blind {p : Path} {names : List Bytes} (hp : isCurrent p = true)
    (hne : p.bytes ≠ []) (h : (names.dropWhile (· == [dot])).head? = some []) :
    spelled? fs p names = none := by
  induction names generalizing p with
  | nil => cases h
  | cons n names ih =>
    rw [spelled?]
    by_cases hn : n = [dot]
    · subst hn
      have hsep : separator ∉ [dot] := by decide
      split
      · refine ih ((isCurrent_below hne hsep).mpr ⟨hp, rfl⟩)
          (bytes_below_ne_nil hne hsep (by simp)) ?_
        simpa using h
      · rfl
    · have hnil : n = [] := by simpa [List.dropWhile_cons, hn] using h
      subst hnil
      have hlook : (fs.lookup false (below p [])).toBool = false := by
        simp [below, hp, lookup, locate, isEmpty, Except.toBool]
      rw [hlook]
      simp [specialNames]

/-- **A search reaches a directory that a walk reaches**, by a path to the same place. -/
theorem spelled?_of_arrives (hfs : fs.IsNested) {p : Path} {k k' : Nat} {l m : Location}
    {names : List Bytes} (hp : fs.Leads p k l) (hsep : ∀ n ∈ names, separator ∉ n)
    (hnul : ∀ n ∈ names, (0 : UInt8) ∉ n) (h : fs.Arrives k l (names.map stepOfPiece) k' m)
    (hm : fs.isDirectoryAt m = true)
    (hsight : isCurrent p = true → (names.dropWhile (· == [dot])).head? ≠ some []) :
    ∃ q, spelled? fs p names = some q ∧ fs.Leads q k' m ∧
      q.place = p.place ++ names.filterMap component? := by
  induction names generalizing p k l with
  | nil =>
    cases h
    refine ⟨p, ?_, hp, by simp⟩
    rw [spelled?, (hp.denotes hm).isDirectory_eq, if_pos hm]
  | cons n names ih =>
    have hn := hsep n (by simp)
    have h0 := hnul n (by simp)
    have hne : isCurrent p = true → n ≠ [] := by
      rintro hc rfl
      exact hsight hc (by simp)
    have hd := h.isDirectoryAt
    have hparts : fs.Arrives k l ([stepOfPiece n] ++ names.map stepOfPiece) k' m := h
    obtain ⟨k₁, l₁, hstep, hrest⟩ := hparts.split
    have hgo : (fs.isDirectory p &&
        (specialNames.contains n || (fs.lookup false (below p n)).toBool)) = true := by
      obtain ⟨m₁, hfound, hentry⟩ := hstep.exists_found hfs
      rw [(hp.denotes hd).isDirectory_eq, hd, Bool.true_and, Bool.or_eq_true]
      refine Or.inr (lookup_toBool_iff.mpr ⟨m₁, ?_, hentry⟩)
      rw [locate_below_of_leads hfs hp hn h0 hne, hfound]
    have hsight' : isCurrent (below p n) = true → (names.dropWhile (· == [dot])).head? ≠ some [] := by
      intro hc
      obtain ⟨hcur, rfl⟩ := (isCurrent_below hp.ne_nil hn).mp hc
      simpa using hsight hcur
    obtain ⟨q, hq, hleads, hplace⟩ := ih (leads_below hfs hp hn h0 hne hstep)
      (fun x hx => hsep x (List.mem_cons_of_mem _ hx)) (fun x hx => hnul x (List.mem_cons_of_mem _ hx))
      hrest hsight'
    refine ⟨q, by rw [spelled?, if_pos hgo, hq], hleads, ?_⟩
    rw [hplace, place_below hp.ne_nil hn, List.append_assoc]
    cases hcomp : component? n <;> simp [hcomp]

/-- What a search goes on with is one step from the directory. -/
theorem denotes_of_visited (hfs : fs.IsPlainTree) {p : Path} {l : Location} (hp : fs.Denotes p l)
    (hd : fs.isDirectoryAt l = true) {n : Bytes} (hn : separator ∉ n)
    (h : specialNames.contains n = true ∨ (fs.lookup false (below p n)).toBool = true) :
    ∃ k, fs.Denotes (below p n) k ∧ fs.route l [stepOfPiece n] = .ok (.found k) := by
  rcases h with h | h
  · have hne : n ≠ [] := by rintro rfl; cases h
    have h0 : (0 : UInt8) ∉ n := by
      rcases contains_specialNames_iff.mp h with rfl | rfl <;> decide
    have hlocate := locate_below hfs hp hn h0 (fun _ => hne) true
    obtain ⟨k, hk⟩ : ∃ k, fs.route l [stepOfPiece n] = .ok (.found k) := by
      rcases contains_specialNames_iff.mp h with rfl | rfl
      · exact ⟨l, (route_stay (.inl rfl) []).trans (if_pos hd)⟩
      · exact ⟨l.dropLast, (route_up l []).trans (if_pos hd)⟩
    exact ⟨k, hlocate.trans hk, hk⟩
  · obtain ⟨k, hk, _⟩ := lookup_toBool_iff.mp h
    have hden : fs.Denotes (below p n) k := (locate_follow hfs false).mp hk
    have hne : isCurrent p = true → n ≠ [] := by
      rintro hc rfl
      exact hden.ne_nil (by simp [below, hc])
    have h0 : (0 : UInt8) ∉ n := fun h0 => hden.no_nul (nul_mem_below hp.ne_nil hn h0)
    exact ⟨k, hden, (locate_below hfs hp hn h0 hne true).symm.trans hden⟩

/-- **A search reaches nothing but directories** that a walk reaches. -/
theorem route_of_spelled? (hfs : fs.IsPlainTree) {p q : Path} {l : Location} {names : List Bytes}
    (hp : fs.Denotes p l) (hsep : ∀ n ∈ names, separator ∉ n) (h : spelled? fs p names = some q) :
    ∃ m, fs.route l (names.map stepOfPiece) = .ok (.found m) ∧ fs.isDirectoryAt m = true := by
  induction names generalizing p l with
  | nil =>
    have hd := spelled?_eq_some h
    rw [spelled?] at h
    split at h
    · cases h
      exact ⟨l, rfl, by rw [← hp.isDirectory_eq]; exact hd⟩
    · cases h
  | cons n names ih =>
    rw [spelled?] at h
    split at h
    · rename_i hc
      rw [Bool.and_eq_true, Bool.or_eq_true, hp.isDirectory_eq] at hc
      obtain ⟨k, hk, hstep⟩ := denotes_of_visited hfs hp hc.1 (hsep n (by simp)) hc.2
      obtain ⟨m, hm, hdir⟩ := ih hk (fun x hx => hsep x (List.mem_cons_of_mem _ hx)) h
      refine ⟨m, ?_, hdir⟩
      exact (route_append hfs hstep (names.map stepOfPiece)).trans hm
    · cases h

end ContractBindings.Glob
