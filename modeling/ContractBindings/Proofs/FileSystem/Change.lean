import ContractBindings.Proofs.FileSystem.Walk

/-!
# Changing one entry

What setting one entry does to a tree without links.

* `entryAt?_set`: nothing else changes;
* `IsPlainTree.set`: the result is again such a tree, if the entry stands in a directory and no
  directory is replaced;
* `Denotes.mono`: a path goes on denoting the same location, because walks only need that what was
  there is still there (`Grows`);
* `putFile_eq`, `contentsAt_eq`: writing and reading through a path are `set` and `bytesAt?` at the
  location that it denotes.
-/

set_option autoImplicit false

namespace ContractBindings.FileSystem

open Text ContractBindings.Path

variable {fs fs' : FileSystem}

/-! ## Entries -/

theorem lookup_setEntry (l k : Location) (e : Entry) (es : List (Location × Entry)) :
    (setEntry l e es).lookup k = if k = l then some e else es.lookup k := by
  induction es with
  | nil =>
    by_cases h : k = l
    · simp [setEntry, h]
    · simp [setEntry, h, List.lookup_cons, beq_eq_false_iff_ne.mpr h]
  | cons x es ih =>
    obtain ⟨k', old⟩ := x
    unfold setEntry
    by_cases hl : k' = l
    · subst hl
      rw [if_pos rfl]
      by_cases h : k = k'
      · simp [h]
      · simp [h, List.lookup_cons, beq_eq_false_iff_ne.mpr h]
    · rw [if_neg hl]
      by_cases h : k = k'
      · subst h
        simp [hl]
      · simp [List.lookup_cons, beq_eq_false_iff_ne.mpr h, ih]

theorem keys_setEntry (l : Location) (e : Entry) (es : List (Location × Entry)) :
    (setEntry l e es).map Prod.fst =
      if l ∈ es.map Prod.fst then es.map Prod.fst else es.map Prod.fst ++ [l] := by
  induction es with
  | nil => simp [setEntry]
  | cons x es ih =>
    obtain ⟨k, old⟩ := x
    unfold setEntry
    by_cases h : k = l
    · simp [h]
    · rw [if_neg h, List.map_cons, ih]
      have h' : l ≠ k := Ne.symm h
      by_cases hm : l ∈ es.map Prod.fst
      · rw [if_pos hm, if_pos (by simp only [List.map_cons, List.mem_cons]; exact Or.inr hm)]; rfl
      · rw [if_neg hm, if_neg (by simp only [List.map_cons, List.mem_cons, not_or]; exact ⟨h', hm⟩)]
        rfl

theorem entryAt?_eq_lookup {l : Location} (h : l ≠ []) : fs.entryAt? l = fs.entries.lookup l := by
  simp [entryAt?, h]

theorem entryAt?_ne_none_iff {l : Location} (h : l ≠ []) :
    fs.entryAt? l ≠ none ↔ l ∈ fs.entries.map Prod.fst := by
  rw [entryAt?_eq_lookup h]
  induction fs.entries with
  | nil => simp
  | cons x es ih =>
    obtain ⟨k, e⟩ := x
    by_cases hk : l = k
    · simp [hk]
    · simp only [List.lookup_cons, beq_eq_false_iff_ne.mpr hk, ih, List.map_cons, List.mem_cons, hk,
        false_or]

theorem entryAt?_of_mem (hd : (fs.entries.map Prod.fst).Nodup) {l : Location} {e : Entry} (hl : l ≠ [])
    (h : (l, e) ∈ fs.entries) : fs.entryAt? l = some e := by
  rw [entryAt?_eq_lookup hl]
  generalize fs.entries = es at hd h
  induction es with
  | nil => cases h
  | cons x es ih =>
    obtain ⟨k, e'⟩ := x
    obtain ⟨hk, hd⟩ := List.nodup_cons.mp hd
    rcases List.mem_cons.mp h with heq | hmem
    · cases heq
      simp
    · have hne : l ≠ k := by
        rintro rfl
        exact hk (List.mem_map.mpr ⟨_, hmem, rfl⟩)
      rw [List.lookup_cons, beq_eq_false_iff_ne.mpr hne]
      exact ih hd hmem

/-- Whether an entry is a symbolic link. -/
def isLink : Entry → Bool
  | .link _ => true
  | _ => false

theorem exists_mem_of_entryAt? {l : Location} (hd : (fs.entries.map Prod.fst).Nodup) (hl : l ≠ [])
    {e : Entry} (h : fs.entryAt? l = some e) : (l, e) ∈ fs.entries := by
  have hthere : fs.entryAt? l ≠ none := by rw [h]; exact Option.some_ne_none e
  obtain ⟨x, hx, rfl⟩ := List.mem_map.mp ((entryAt?_ne_none_iff hl).mp hthere)
  rw [entryAt?_of_mem hd hl hx] at h
  cases h
  exact hx

/-- Whether the entries are those of a tree can be read off them. -/
theorem isTree_iff :
    fs.IsTree ↔ (fs.entries.map Prod.fst).Nodup ∧
      fs.isDirectoryAt fs.workingDirectory = true ∧
      ∀ x ∈ fs.entries, x.1 ≠ [] → fs.isDirectoryAt x.1.dropLast = true ∧
        IsName (x.1.getLast?.getD []) := by
  constructor
  · intro h
    refine ⟨h.distinct, h.start, fun x hx hne => ?_⟩
    have he := entryAt?_of_mem h.distinct hne hx
    obtain ⟨d, n, hd⟩ := List.eq_nil_or_concat x.1 |>.resolve_left hne
    rw [List.concat_eq_append] at hd
    rw [hd] at he ⊢
    have hthere : fs.entryAt? (d ++ [n]) ≠ none := by simp [he]
    exact ⟨by simpa using h.above d n hthere, by simpa using h.named d n hthere⟩
  · rintro ⟨hdistinct, hstart, hall⟩
    have hentry : ∀ l n, fs.entryAt? (l ++ [n]) ≠ none → ∃ e, (l ++ [n], e) ∈ fs.entries := by
      intro l n h
      obtain ⟨e, he⟩ := Option.ne_none_iff_exists'.mp h
      exact ⟨e, exists_mem_of_entryAt? hdistinct (by simp) he⟩
    refine ⟨hdistinct, ?_, ?_, hstart⟩
    · intro l n h
      obtain ⟨e, he⟩ := hentry l n h
      simpa using (hall _ he (by simp)).1
    · intro l n h
      obtain ⟨e, he⟩ := hentry l n h
      simpa using (hall _ he (by simp)).2

instance : Decidable fs.IsTree := decidable_of_iff _ isTree_iff.symm

/-- A tree is plain if no entry is a link. -/
theorem isPlainTree_iff :
    fs.IsPlainTree ↔ fs.IsTree ∧ ∀ x ∈ fs.entries, x.1 ≠ [] → isLink x.2 = false := by
  constructor
  · intro h
    refine ⟨h.toIsTree, fun x hx hne => ?_⟩
    have he := entryAt?_of_mem h.distinct hne hx
    cases hlink : x.2 with
    | link t => exact absurd (hlink ▸ he) (h.noLink _ t)
    | directory => rfl
    | file b => rfl
    | program p => rfl
  · rintro ⟨htree, hall⟩
    refine ⟨htree, ?_⟩
    intro l t h
    have hl : l ≠ [] := by rintro rfl; simp [entryAt?] at h
    have hlink := hall _ (exists_mem_of_entryAt? htree.distinct hl h) hl
    cases hlink

instance : Decidable fs.IsPlainTree := decidable_of_iff _ isPlainTree_iff.symm

theorem entryAt?_set {l : Location} (hl : l ≠ []) (e : Entry) (k : Location) :
    (fs.set l e).entryAt? k = if k = l then some e else fs.entryAt? k := by
  unfold entryAt? set
  by_cases hk : k = []
  · subst hk
    simp [Ne.symm hl]
  · simp only [hk, if_false]
    exact lookup_setEntry l k e fs.entries

/-! ## Directories -/

/-- A location gives a directory the name of an entry if it is one step below. -/
theorem childName_eq_some_iff {l k : Location} {n : Name} :
    (match k.getLast? with
      | some name => if k.dropLast = l then some name else none
      | none => none) = some n ↔ k = l ++ [n] := by
  rcases List.eq_nil_or_concat k with rfl | ⟨init, m, rfl⟩
  · simp
  · simp only [List.concat_eq_append, List.getLast?_append, List.getLast?_singleton,
      Option.some_or, List.dropLast_concat]
    constructor
    · intro h
      split at h
      · rename_i hi; cases h; rw [hi]
      · cases h
    · intro h
      have := List.append_inj' h rfl
      rw [if_pos this.1, (List.cons.inj this.2).1]

theorem mem_children_iff {l : Location} {n : Name} :
    n ∈ fs.children l ↔ fs.entryAt? (l ++ [n]) ≠ none := by
  rw [entryAt?_ne_none_iff (by simp), List.mem_map]
  unfold children
  rw [List.mem_filterMap]
  constructor
  · rintro ⟨x, hm, h⟩
    exact ⟨x, hm, childName_eq_some_iff.mp h⟩
  · rintro ⟨x, hm, h⟩
    exact ⟨x, hm, childName_eq_some_iff.mpr h⟩

theorem nodup_children (hfs : fs.IsTree) (l : Location) : (fs.children l).Nodup := by
  have hd := hfs.distinct
  unfold children
  generalize fs.entries = entries at hd
  induction entries with
  | nil => simp
  | cons x es ih =>
    rw [List.map_cons, List.nodup_cons] at hd
    rw [List.filterMap_cons]
    split
    · exact ih hd.2
    · rename_i n hn
      refine List.nodup_cons.mpr ⟨?_, ih hd.2⟩
      intro hmem
      obtain ⟨y, hm, h⟩ := List.mem_filterMap.mp hmem
      exact hd.1 (List.mem_map.mpr ⟨y, hm,
        (childName_eq_some_iff.mp h).trans (childName_eq_some_iff.mp hn).symm⟩)

/-- Everything on the way to an entry exists. -/
theorem entryAt?_of_append (hfs : fs.IsNested) {l k : Location} (h : fs.entryAt? (l ++ k) ≠ none) :
    fs.entryAt? l ≠ none := by
  induction k using List.reverseRecOn with
  | nil => simpa using h
  | append_singleton k n ih =>
    rw [← List.append_assoc] at h
    have := isDirectoryAt_iff.mp (hfs.above _ n h)
    exact ih (by simp [this])

/-- What holds an entry is a directory. -/
theorem isDirectoryAt_of_append (hfs : fs.IsNested) {l k : Location} (hk : k ≠ [])
    (h : fs.entryAt? (l ++ k) ≠ none) : fs.isDirectoryAt l = true := by
  obtain ⟨n, rest, rfl⟩ := List.exists_cons_of_ne_nil hk
  rw [List.append_cons] at h
  exact hfs.above l n (entryAt?_of_append hfs h)

/-- No location lies deeper than there are entries. -/
theorem length_le (hfs : fs.IsNested) {l : Location} (h : fs.entryAt? l ≠ none) :
    l.length ≤ fs.entries.length := by
  have hnodup : ((List.range l.length).map fun i => l.take (i + 1)).Nodup := by
    refine (List.nodup_range).map_on ?_
    intro i hi j hj hij
    have := congrArg List.length hij
    simp only [List.length_take, List.mem_range] at this hi hj
    omega
  have hsub : ((List.range l.length).map fun i => l.take (i + 1)) ⊆ fs.entries.map Prod.fst := by
    intro k hk
    obtain ⟨i, hi, rfl⟩ := List.mem_map.mp hk
    have hne : l.take (i + 1) ≠ [] := by
      intro he
      have := congrArg List.length he
      simp only [List.length_take, List.mem_range, List.length_nil] at this hi
      omega
    rw [← entryAt?_ne_none_iff hne]
    exact entryAt?_of_append hfs (k := l.drop (i + 1)) (by rwa [List.take_append_drop])
  simpa using (hnodup.subperm hsub).length_le

/-! ## Trees that only grow -/

/-- Directories stay directories, and every entry is kept or replaced. -/
structure Grows (fs fs' : FileSystem) : Prop where
  workingDirectory : fs'.workingDirectory = fs.workingDirectory
  directory : ∀ l, fs.isDirectoryAt l = true → fs'.isDirectoryAt l = true
  entry : ∀ l, fs.entryAt? l ≠ none → fs'.entryAt? l ≠ none

theorem Grows.refl (fs : FileSystem) : fs.Grows fs := ⟨rfl, fun _ h => h, fun _ h => h⟩

theorem Grows.trans {fs'' : FileSystem} (h : fs.Grows fs') (h' : fs'.Grows fs'') : fs.Grows fs'' :=
  ⟨h'.workingDirectory.trans h.workingDirectory, fun l hl => h'.directory l (h.directory l hl),
    fun l hl => h'.entry l (h.entry l hl)⟩

theorem route_mono (hfs : fs.IsPlainTree) (hfs' : fs'.IsPlainTree) (hg : fs.Grows fs')
    {l m : Location} {steps : List Step} (h : fs.route l steps = .ok (.found m)) :
    fs'.route l steps = .ok (.found m) := by
  induction steps generalizing l with
  | nil => exact h
  | cons step rest ih =>
    obtain ⟨k, hk, hr, _⟩ := route_cons_found hfs h
    have hd := isDirectoryAt_of_route h
    have hd' := hg.directory l hd
    cases step with
    | here =>
      rw [route_stay (.inl rfl), if_pos hd] at hk
      cases hk
      rw [route_stay (.inl rfl), if_pos hd', ih hr]
    | slash =>
      rw [route_stay (.inr rfl), if_pos hd] at hk
      cases hk
      rw [route_stay (.inr rfl), if_pos hd', ih hr]
    | up =>
      rw [route_up, if_pos hd] at hk
      cases hk
      rw [route_up, if_pos hd', ih hr]
    | down n =>
      obtain ⟨rfl, he⟩ := eq_of_route_down hfs hk
      rw [route_down_some hfs' (hg.entry _ he), ih hr]

theorem Denotes.mono (hfs : fs.IsPlainTree) (hfs' : fs'.IsPlainTree) (hg : fs.Grows fs') {p : Path}
    {l : Location} (h : fs.Denotes p l) : fs'.Denotes p l := by
  rw [Denotes, locate_eq_route hfs' true h.no_nul h.ne_nil, origin_congr hg.workingDirectory]
  exact route_mono hfs hfs' hg (h.route_eq hfs)

theorem Grows.set {d : Location} {n : Name} {e : Entry}
    (he : fs.isDirectoryAt (d ++ [n]) = true → e = .directory) : fs.Grows (fs.set (d ++ [n]) e) := by
  refine ⟨rfl, fun l hl => ?_, fun l hl => ?_⟩
  · rw [isDirectoryAt_iff] at hl ⊢
    rw [entryAt?_set (by simp)]
    split
    · rename_i h; subst h; rw [he (isDirectoryAt_iff.mpr hl)]
    · exact hl
  · rw [entryAt?_set (by simp)]
    split
    · simp
    · exact hl

/-- **A new entry in a directory keeps the tree plain**, if no directory gives way to a file. -/
theorem IsPlainTree.set (hfs : fs.IsPlainTree) {d : Location} {n : Name} {e : Entry}
    (hd : fs.isDirectoryAt d = true) (hn : IsName n) (hlink : ∀ t, e ≠ .link t)
    (he : fs.isDirectoryAt (d ++ [n]) = true → e = .directory) : (fs.set (d ++ [n]) e).IsPlainTree := by
  have hg := Grows.set he
  have hlast : ∀ l m, l ++ [m] = d ++ [n] → l = d ∧ m = n := by
    intro l m h
    have := List.append_inj' h rfl
    exact ⟨this.1, List.cons.inj this.2 |>.1⟩
  refine ⟨⟨?_, ?_, ?_, hg.directory _ hfs.start⟩, ?_⟩
  · show ((setEntry (d ++ [n]) e fs.entries).map Prod.fst).Nodup
    rw [keys_setEntry]
    split
    · exact hfs.distinct
    · rename_i h
      rw [List.nodup_append]
      refine ⟨hfs.distinct, by simp, ?_⟩
      rintro k hk _ hmem rfl
      exact h (List.mem_singleton.mp hmem ▸ hk)
  · intro l m h
    rw [entryAt?_set (by simp)] at h
    split at h
    · rename_i hlm; rw [(hlast l m hlm).1]; exact hg.directory d hd
    · exact hg.directory l (hfs.above l m h)
  · intro l m h
    rw [entryAt?_set (by simp)] at h
    split at h
    · rename_i hlm; rw [(hlast l m hlm).2]; exact hn
    · exact hfs.named l m h
  · intro l t h
    rw [entryAt?_set (by simp)] at h
    split at h
    · cases h; exact hlink t rfl
    · exact hfs.noLink l t h

/-! ## Reading and writing -/

/-- The bytes of the file at a location.  What a program consists of is not known. -/
def bytesAt? (fs : FileSystem) (l : Location) : Option Bytes :=
  match fs.entryAt? l with
  | some (.file b) => some b
  | some (.program _) => some []
  | _ => none

/-- What is looked up is the entry that a path leads to. -/
theorem lookup_eq_ok_iff {follow : Bool} {p : Path} {e : Entry} :
    fs.lookup follow p = .ok e ↔
      ∃ l, fs.locate follow p = .ok (.found l) ∧ fs.entryAt? l = some e := by
  unfold lookup
  cases hl : fs.locate follow p with
  | error e' => simp
  | ok spot =>
    cases spot with
    | vacant l b => simp
    | found l => cases he : fs.entryAt? l <;> simp [he]

theorem lookup_of_denotes {p : Path} {l : Location} (h : fs.Denotes p l) {e : Entry}
    (he : fs.entryAt? l = some e) : fs.lookup true p = .ok e :=
  lookup_eq_ok_iff.mpr ⟨l, h, he⟩

theorem isDirectory_iff {p : Path} :
    fs.isDirectory p = true ↔ ∃ l, fs.Denotes p l ∧ fs.isDirectoryAt l = true := by
  simp only [isDirectoryAt_iff, Denotes, ← lookup_eq_ok_iff]
  unfold isDirectory
  split
  · rename_i h
    simp [h]
  · rename_i hnot
    simpa using hnot

theorem exists_denotes_of_isFile {p : Path} (h : fs.isFile p = true) : ∃ l, fs.Denotes p l := by
  unfold isFile at h
  split at h
  · rename_i hfile
    exact (lookup_eq_ok_iff.mp hfile).imp fun _ => And.left
  · rename_i hprogram
    exact (lookup_eq_ok_iff.mp hprogram).imp fun _ => And.left
  · cases h

theorem Denotes.isDirectory_eq {p : Path} {l : Location} (h : fs.Denotes p l) :
    fs.isDirectory p = fs.isDirectoryAt l := by
  rw [Bool.eq_iff_iff, isDirectory_iff]
  exact ⟨fun ⟨m, hm, hd⟩ => h.unique hm ▸ hd, fun hd => ⟨l, h, hd⟩⟩

theorem Denotes.isFile_eq (hfs : fs.IsPlainTree) {p : Path} {l : Location} (h : fs.Denotes p l) :
    fs.isFile p = (fs.bytesAt? l).isSome := by
  obtain ⟨e, he⟩ := Option.ne_none_iff_exists'.mp (h.entryAt? hfs)
  unfold isFile bytesAt?
  rw [lookup_of_denotes h he, he]
  cases e <;> rfl

theorem contentsAt_eq (hfs : fs.IsPlainTree) {p : Path} {l : Location} (h : fs.Denotes p l) :
    fs.contentsAt p = (fs.bytesAt? l).elim (.error .isDirectory) .ok := by
  obtain ⟨e, he⟩ := Option.ne_none_iff_exists'.mp (h.entryAt? hfs)
  unfold contentsAt bytesAt?
  rw [lookup_of_denotes h he, he]
  cases e <;> rfl

/-- **Writing sets the entry that the path leads to**, unless that is a directory. -/
theorem putFile_eq (hfs : fs.IsPlainTree) {p : Path} {d : Location} {n : Name}
    (h : fs.locate true p = fs.route d [.down n]) (hd : fs.isDirectoryAt d = true) (c : Bytes) :
    fs.putFile p c =
      if fs.isDirectoryAt (d ++ [n]) then .error .isDirectory
      else .ok (fs.set (d ++ [n]) (.file c)) := by
  unfold putFile
  rw [h]
  cases he : fs.entryAt? (d ++ [n]) with
  | none =>
    have hnot : fs.isDirectoryAt (d ++ [n]) = false := by simp [isDirectoryAt, he]
    rw [route_down_none hd he, hnot]
    simp
  | some e =>
    rw [route_down_some hfs (by simp [he])]
    rfl

end ContractBindings.FileSystem
