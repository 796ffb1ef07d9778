import ContractBindings.Proofs.FileSystem.Spelling
import ContractBindings.Proofs.Text.Encoding

/-!
# File names

The name at the end of a path, the stem of a name, and the path with another name.

* `stem_append`: the stem of a name is what stands before its last dot, except that a name that only
  begins with a dot is its own stem.  A stem is never empty (`stem_ne_nil`);
* `pieces_withFileName`: giving a file another name replaces the last piece of its path and drops
  silent pieces before it;
* `place_withFileName`: so the place changes in its last component only.
-/

set_option autoImplicit false

namespace ContractBindings.Path

open Text

/-! ## Stems -/

theorem dropWhile_reverse_append {u v : Bytes} (hv : dot ∉ v) :
    (u ++ dot :: v).reverse.dropWhile (· != dot) = dot :: u.reverse := by
  have hpass : ∀ b ∈ v.reverse, (b != dot) = true := by
    intro b hb
    have : b ≠ dot := fun h => hv (h ▸ List.mem_reverse.mp hb)
    simpa using this
  rw [List.reverse_append, List.reverse_cons, List.append_assoc,
    List.dropWhile_append_of_pos hpass]
  simp

/-- The stem ends before the last dot, unless nothing stands before it. -/
theorem stem_append {u v : Bytes} (hv : dot ∉ v) :
    stem (u ++ dot :: v) = if u = [] then dot :: v else u := by
  unfold stem
  rw [dropWhile_reverse_append hv]
  by_cases hu : u = []
  · simp [hu]
  · simp [hu]

theorem stem_of_not_mem {n : Name} (h : dot ∉ n) : stem n = n := by
  have : n.reverse.dropWhile (· != dot) = [] := by
    rw [List.dropWhile_eq_nil_iff]
    intro b hb
    have : b ≠ dot := fun e => h (e ▸ List.mem_reverse.mp hb)
    simpa using this
  unfold stem
  rw [this]

theorem exists_last {α : Type} {a : α} {xs : List α} (h : a ∈ xs) :
    ∃ u v, xs = u ++ a :: v ∧ a ∉ v := by
  induction xs with
  | nil => cases h
  | cons x xs ih =>
    by_cases hx : a ∈ xs
    · obtain ⟨u, v, rfl, hv⟩ := ih hx
      exact ⟨x :: u, v, rfl, hv⟩
    · rcases List.mem_cons.mp h with rfl | h
      · exact ⟨[], xs, rfl, hx⟩
      · exact absurd h hx

theorem stem_ne_nil {n : Name} (h : n ≠ []) : stem n ≠ [] := by
  by_cases hd : dot ∈ n
  · obtain ⟨u, v, rfl, hv⟩ := exists_last hd
    rw [stem_append hv]
    split <;> simp [*]
  · rwa [stem_of_not_mem hd]

/-- A stem is the front of its name. -/
theorem stem_isPrefix (n : Name) : stem n <+: n := by
  by_cases hd : dot ∈ n
  · obtain ⟨u, v, rfl, hv⟩ := exists_last hd
    rw [stem_append hv]
    split
    · rename_i h; simp [h]
    · exact List.prefix_append _ _
  · rw [stem_of_not_mem hd]

/-- The stem of a name that is text is text. -/
theorem stem_encode (text : String) : ∃ t, stem (encode text) = encode t := by
  have hdot : ∀ s : String, dot ∈ encode s ↔ '.' ∈ s.toList := fun s => mem_encode_iff (by decide)
  by_cases h : '.' ∈ text.toList
  · obtain ⟨u, v, hsplit, hv⟩ := exists_last h
    have henc : encode text = encode (String.ofList u) ++ dot :: encode (String.ofList v) := by
      have htext : text = String.ofList u ++ "." ++ String.ofList v := by
        apply String.toList_injective
        rw [hsplit]
        simp
      rw [htext, encode_append, encode_append, List.append_assoc]
      rfl
    rw [henc, stem_append (by rwa [hdot, String.toList_ofList])]
    split
    · exact ⟨"." ++ String.ofList v, by rw [encode_append]; rfl⟩
    · exact ⟨_, rfl⟩
  · exact ⟨text, stem_of_not_mem (by rwa [hdot])⟩

/-! ## Names that are text -/

/-- Which texts are names. -/
theorem isName_encode_iff {text : String} : IsName (encode text) ↔
    text ≠ "" ∧ text ≠ "." ∧ text ≠ ".." ∧ '/' ∉ text.toList ∧ '\x00' ∉ text.toList := by
  have hne : ∀ other : String, encode text ≠ encode other ↔ text ≠ other :=
    fun other => not_congr ⟨fun he => encode_injective he, congrArg encode⟩
  have hdot : [dot] = encode "." := rfl
  have hdots : [dot, dot] = encode ".." := rfl
  have hslash : separator ∉ encode text ↔ '/' ∉ text.toList := not_congr (mem_encode_iff (by decide))
  have hnul : (0 : UInt8) ∉ encode text ↔ '\x00' ∉ text.toList := not_congr (mem_encode_iff (by decide))
  rw [← hne "", ← hne ".", ← hne "..", ← hslash, ← hnul, ← hdot, ← hdots]
  exact ⟨fun h => ⟨h.ne_nil, h.ne_dot, h.ne_dots, h.no_separator, h.no_nul⟩,
    fun ⟨hnil, hdot, hdots, hsep, h0⟩ => ⟨hnil, hdot, hdots, hsep, h0⟩⟩

/-- A name joined to a path that is text gives a path that is text. -/
theorem exists_ofString_join {text : String} (h : text ≠ "") (name : String)
    (hname : '/' ∉ name.toList) :
    ∃ joined, (Path.ofString text).join (Path.ofString name) = Path.ofString joined := by
  have hbytes : (Path.ofString text).bytes ≠ [] := fun e => h (encode_eq_nil_iff.mp e)
  have hsep : separator ∉ encode name := by rw [mem_encode_iff (by decide)]; exact hname
  have hjoin := bytes_join hbytes hsep
  split at hjoin
  · refine ⟨text ++ name, congrArg Path.mk (hjoin.trans ?_)⟩
    rw [encode_append]
    rfl
  · refine ⟨text ++ "/" ++ name, congrArg Path.mk (hjoin.trans ?_)⟩
    rw [encode_append, encode_append, List.append_assoc]
    rfl

/-! ## The last piece -/

theorem fileName?_of_pieces {p : Path} {ps : List Bytes} {n : Name} (hp : p.pieces = ps ++ [n])
    (hn : IsName n) : p.fileName? = some n := by
  have hl : p.components.getLast? = some (.normal n) := by
    rw [components_eq, place, hp, List.filterMap_append]
    simp [component?_of_isName hn]
  simp [fileName?, hl]

theorem dropSilent_cons_of_not_silent {piece : Bytes} {rest : List Bytes}
    (h : isSilent piece = false) : dropSilent (piece :: rest) = piece :: rest := by
  cases rest with
  | nil => rfl
  | cons next rest => simp [dropSilent, h]

/-- What `dropSilent` leaves, for pieces from the last to the first. -/
theorem dropSilent_spec : ∀ ps : List Bytes, ps ≠ [] →
    ∃ silent rest, ps = silent ++ rest ∧ rest ≠ [] ∧ (∀ s ∈ silent, isSilent s = true) ∧
      dropSilent ps = rest ∧ (∀ last more, rest = last :: more → more ≠ [] → isSilent last = false)
  | [], h => absurd rfl h
  | [piece], _ => ⟨[], [piece], rfl, by simp, by simp, rfl, by rintro _ _ ⟨⟩ h; exact absurd rfl h⟩
  | piece :: next :: rest, _ => by
    by_cases hs : isSilent piece = true
    · obtain ⟨silent, kept, he, hne, hall, hd, hl⟩ := dropSilent_spec (next :: rest) (by simp)
      refine ⟨piece :: silent, kept, by rw [he]; rfl, hne, ?_, ?_, hl⟩
      · intro s hm
        rcases List.mem_cons.mp hm with rfl | hm
        · exact hs
        · exact hall s hm
      · simp only [dropSilent, hs, if_true]
        exact hd
    · refine ⟨[], _, rfl, by simp, by simp, ?_, ?_⟩
      · simp [dropSilent, hs]
      · rintro _ _ ⟨⟩ _; simpa using hs

theorem parent?_of_pieces {p : Path} {ps : List Bytes} {n : Name} (hp : p.pieces = ps ++ [n])
    (hn : IsName n) (hps : ps ≠ []) :
    p.parent? = some (ofReversedPieces p.isAbsolute (dropSilent ps.reverse)) := by
  have hs : isSilent n = false := by
    rw [Bool.eq_false_iff, Ne, isSilent_iff, not_or]; exact ⟨hn.ne_nil, hn.ne_dot⟩
  have hr : p.pieces.reverse = n :: ps.reverse := by rw [hp]; simp
  unfold parent?
  rw [hr, dropSilent_cons_of_not_silent hs]
  obtain ⟨q, qs, hq⟩ := List.exists_cons_of_ne_nil (l := ps.reverse) (by simpa using hps)
  rw [hq]

theorem withFileName_single {p : Path} {n m : Name} (hp : p.pieces = [n]) (hn : IsName n)
    (hm : separator ∉ m) : p.withFileName ⟨m⟩ = ⟨m⟩ := by
  have hs : isSilent n = false := by
    rw [Bool.eq_false_iff, Ne, isSilent_iff, not_or]; exact ⟨hn.ne_nil, hn.ne_dot⟩
  have hpar : p.parent? = some ⟨[]⟩ := by
    unfold parent?
    rw [hp, List.reverse_singleton, dropSilent_cons_of_not_silent hs]
    simp [hn.ne_nil]
  unfold withFileName
  have hlast : p.pieces = [] ++ [n] := hp
  rw [fileName?_of_pieces hlast hn, hpar]
  simp [join, isAbsolute_mk hm, isEmpty]

/-- The old name does not matter for the path with a new one. -/
theorem withFileName_congr {p q : Path} {ps : List Bytes} {n n' m : Name} (hp : p.pieces = ps ++ [n])
    (hq : q.pieces = ps ++ [n']) (hn : IsName n) (hn' : IsName n') (hm : separator ∉ m) :
    p.withFileName ⟨m⟩ = q.withFileName ⟨m⟩ := by
  cases ps with
  | nil => rw [withFileName_single hp hn hm, withFileName_single hq hn' hm]
  | cons first ps =>
    have habs : p.isAbsolute = q.isAbsolute := isAbsolute_congr hp hq (by simp) (by simp)
    simp only [withFileName, fileName?_of_pieces hp hn, fileName?_of_pieces hq hn',
      parent?_of_pieces hp hn (by simp), parent?_of_pieces hq hn' (by simp), habs]

/-- A name behind pieces of which the last one is not empty, unless it is the only one. -/
theorem pieces_ofReversedPieces_join {absolute : Bool} {rest : List Bytes} {m : Name} (hne : rest ≠ [])
    (hfree : ∀ q ∈ rest, separator ∉ q)
    (hlast : ∀ q qs, rest = q :: qs → qs ≠ [] → isSilent q = false)
    (htop : rest = [[]] → absolute = true) (hm : separator ∉ m) :
    ((ofReversedPieces absolute rest).join ⟨m⟩).pieces = rest.reverse ++ [m] := by
  by_cases hroot : absolute = true ∧ rest = [[]]
  · rw [ofReversedPieces, if_pos hroot, hroot.2, pieces_eq, bytes_join (by simp [root]) hm]
    simp [root, between_cons_self, between_of_not_mem hm]
  · rw [ofReversedPieces, if_neg hroot]
    have hpieces : (Path.mk (joinPieces rest.reverse)).pieces = rest.reverse := by
      rw [pieces_eq]
      exact between_joinPieces (by simpa using hne) fun q hq => hfree q (List.mem_reverse.mp hq)
    have hbytes : (Path.mk (joinPieces rest.reverse)).bytes ≠ [] := by
      intro hnil
      have hempty : rest.reverse = [[]] := by rw [← hpieces, pieces_eq, hnil]; rfl
      have hrest : rest = [[]] := by simpa using congrArg List.reverse hempty
      exact hroot ⟨htop hrest, hrest⟩
    obtain ⟨qs, hqs, hq, hj⟩ := pieces_join hbytes
    rw [hpieces] at hq
    rcases hq with hq | hq
    · rw [hj m hm, hq]
    · have hrest : rest = [] :: qs.reverse := by simpa using congrArg List.reverse hq
      have := hlast [] qs.reverse hrest (by simpa using hqs)
      simp [isSilent] at this

/-- **Another file name takes the place of the last piece**; silent pieces before it are dropped. -/
theorem pieces_withFileName {p : Path} {ps : List Bytes} {n m : Name} (hp : p.pieces = ps ++ [n])
    (hn : IsName n) (hm : separator ∉ m) :
    ∃ kept silent, ps = kept ++ silent ∧ (∀ s ∈ silent, isSilent s = true) ∧
      (kept = [] → ps = []) ∧ (p.withFileName ⟨m⟩).pieces = kept ++ [m] := by
  by_cases hps : ps = []
  · subst hps
    exact ⟨[], [], rfl, by simp, fun _ => rfl,
      by rw [withFileName_single (by simpa using hp) hn hm, pieces_mk hm]; rfl⟩
  obtain ⟨silent, rest, he, hne, hall, hd, hl⟩ := dropSilent_spec ps.reverse (by simpa using hps)
  have hsplit : ps = rest.reverse ++ silent.reverse := by
    rw [← List.reverse_append, ← he, List.reverse_reverse]
  have hfree : ∀ q ∈ rest, separator ∉ q := by
    intro q hq
    refine no_separator_of_mem_pieces (p := p) ?_
    rw [hp, hsplit]
    simp [hq]
  -- a relative path does not begin with an empty piece
  have htop : rest = [[]] → p.isAbsolute = true := by
    intro hrest
    refine isAbsolute_iff.mpr ⟨silent.reverse ++ [n], by simp, ?_⟩
    rw [hp, hsplit, hrest]
    rfl
  have hwith : p.withFileName ⟨m⟩ = (ofReversedPieces p.isAbsolute rest).join ⟨m⟩ := by
    unfold withFileName
    rw [fileName?_of_pieces hp hn, parent?_of_pieces hp hn hps, hd]
    rfl
  refine ⟨rest.reverse, silent.reverse, hsplit, by simpa using hall,
    fun h => absurd (by simpa using h) hne, ?_⟩
  rw [hwith]
  exact pieces_ofReversedPieces_join hne hfree hl htop hm

theorem isAbsolute_withFileName {p : Path} {ps : List Bytes} {n m : Name} (hp : p.pieces = ps ++ [n])
    (hn : IsName n) (hm : separator ∉ m) : (p.withFileName ⟨m⟩).isAbsolute = p.isAbsolute := by
  obtain ⟨kept, silent, hsplit, _, hnil, hw⟩ := pieces_withFileName hp hn hm
  cases kept with
  | nil =>
    rw [hnil rfl, List.nil_append] at hp
    have hrel : p.isAbsolute = false := by
      rw [Bool.eq_false_iff, Ne, isAbsolute_iff, hp]
      rintro ⟨rest, hne, he⟩
      cases he
      exact hne rfl
    rw [withFileName_single hp hn hm, isAbsolute_mk hm, hrel]
  | cons first kept =>
    exact isAbsolute_congr (by rw [hw]; rfl) (by rw [hp, hsplit]; rfl) (by simp) (by simp)

/-- **The place changes in its last component only.** -/
theorem place_withFileName {p : Path} {ps : List Bytes} {n m : Name} (hp : p.pieces = ps ++ [n])
    (hn : IsName n) (hm : separator ∉ m) :
    ∃ above, p.place = above ++ [.normal n] ∧
      (p.withFileName ⟨m⟩).place = above ++ (component? m).toList := by
  obtain ⟨kept, silent, hsplit, hall, _, hw⟩ := pieces_withFileName hp hn hm
  have hsilent : silent.filterMap component? = [] := by
    rw [List.filterMap_eq_nil_iff]
    exact fun s hs => component?_eq_none_iff.mpr (hall s hs)
  refine ⟨(if p.isAbsolute then [.root] else []) ++ kept.filterMap component?, ?_, ?_⟩
  · rw [place, hp, hsplit]
    simp [List.filterMap_append, hsilent, component?_of_isName hn]
  · rw [place, isAbsolute_withFileName hp hn hm, hw, List.filterMap_append, List.append_assoc]
    cases hc : component? m <;> simp [hc]

theorem withFileName_ne_nil {p : Path} {ps : List Bytes} {n m : Name} (hp : p.pieces = ps ++ [n])
    (hn : IsName n) (hm : separator ∉ m) (hne : m ≠ []) : (p.withFileName ⟨m⟩).bytes ≠ [] := by
  obtain ⟨kept, _, _, _, _, hw⟩ := pieces_withFileName hp hn hm
  intro h
  rw [pieces_eq, h, show between separator ([] : Bytes) = [] ++ [[]] from rfl] at hw
  exact hne (List.append_inj_right' hw (by simp) |> List.cons.inj |>.1).symm

theorem no_nul_withFileName {p : Path} {ps : List Bytes} {n m : Name} (hp : p.pieces = ps ++ [n])
    (hn : IsName n) (hm : separator ∉ m) (h0 : (0 : UInt8) ∉ p.bytes) (hm0 : (0 : UInt8) ∉ m) :
    (0 : UInt8) ∉ (p.withFileName ⟨m⟩).bytes := by
  obtain ⟨kept, silent, hsplit, _, _, hw⟩ := pieces_withFileName hp hn hm
  rw [mem_bytes_iff (by decide), hw]
  rintro ⟨piece, hpiece, hz⟩
  rcases List.mem_append.mp hpiece with hk | hk
  · exact h0 ((mem_bytes_iff (by decide)).mpr ⟨piece, by rw [hp, hsplit]; simp [hk], hz⟩)
  · rw [List.mem_singleton.mp hk] at hz
    exact hm0 hz

end ContractBindings.Path
