import ContractBindings.Proofs.FileSystem.Order
import ContractBindings.Proofs.Glob.Spelling

/-!
# The files below a directory

What `filesBelow` finds in a tree without links, for an extension that stands for itself.

* `descend_pieces`: the search first goes to the directory, as `spelled?` says;
* `descend_stars`, `descend_files`: from there it visits every entry below, `filesFrom`;
* `mem_filesFrom_iff`, `nodup_filesFrom`: so it finds each name with the extension once;
* `filesBelow_of_reached`, `filesBelow_of_not_reached`: the result is the listing of the directory
  (`IsListing`), or nothing;
* `reached?_ofString`, `reached?_of_isBlind`: a directory whose path is text is reached, unless that path
  is one like `./`.
-/

set_option autoImplicit false

namespace ContractBindings.Glob

open Text ContractBindings.Path FileSystem

variable {fs fs' : FileSystem}

/-! ## The way to the directory -/

theorem descend_of_not_directory {p : Path} (h : fs.isDirectory p = false) (only : Bool) (depth : Nat)
    (components : List Component) : descend fs only depth components p = [] := by
  cases depth with
  | zero => rfl
  | succ depth =>
    cases components with
    | nil => rfl
    | cons c rest => simp [descend, h]

theorem flatMap_of_name {names : List Name} (hnodup : names.Nodup) (n : Name) (xs : List Path) :
    (names.flatMap fun name => if name = n then xs else []) = if n ∈ names then xs else [] := by
  induction names with
  | nil => rfl
  | cons a names ih =>
    obtain ⟨ha, hrest⟩ := List.nodup_cons.mp hnodup
    rw [List.flatMap_cons, ih hrest]
    by_cases han : a = n
    · subst han
      simp [ha]
    · simp [han, Ne.symm han]

/-- The bytes of the pieces of a directory as a search reads it. -/
def encodePiece (cs : List Char) : Bytes := encode (String.ofList cs)

theorem separator_not_mem_encodePiece {cs : List Char} (h : '/' ∉ cs) :
    separator ∉ encodePiece cs := by
  intro hm
  have := (mem_encode_iff (b := separator) (by decide)).mp hm
  rw [String.toList_ofList] at this
  exact h this

/-- A name with characters that have a meaning in patterns is no special name. -/
theorem not_special_encodePiece {cs : List Char} (h : cs.any isSpecial = true) :
    encodePiece cs ≠ [] ∧ encodePiece cs ≠ [dot] ∧ encodePiece cs ≠ [dot, dot] := by
  have hne : ∀ text : String, text.toList.any isSpecial = false → encodePiece cs ≠ encode text := by
    intro text ht he
    have := congrArg decode? he
    rw [encodePiece, decode?_encode, decode?_encode] at this
    have hcs : String.ofList cs = text := Option.some.inj this
    rw [← hcs, String.toList_ofList, h] at ht
    cases ht
  refine ⟨?_, ?_, ?_⟩
  · exact hne "" rfl
  · exact hne "." rfl
  · exact hne ".." rfl

theorem namesIn_of_denotes {p : Path} {l : Location} (hp : fs.Denotes p l)
    (hd : fs.isDirectoryAt l = true) : fs.namesIn p = .ok (fs.children l) := by
  unfold namesIn
  rw [hp]
  simp [hd]

/-- An escaped piece leads on from the entry of its name only. -/
theorem visit_quoted (cs : List Char) (next : List Component → Path → List Path) {rest : List Component}
    (hrest : rest ≠ []) (name : Name) (p : Path) :
    visit fs false next (cs.map quotedToken) rest name p =
      if name = encodePiece cs then next rest p else [] := by
  have hmatch : matchesName (cs.map quotedToken) name = true ↔ name = encodePiece cs :=
    matchesName_quoted
  simp only [visit, proceed, isAnyDirectories_quoted, Bool.false_eq_true, if_false, compareName, hmatch,
    List.isEmpty_iff, hrest]

/-- A piece that has to be escaped is looked for among the names of the directory, and not among the
special ones. -/
theorem inDirectory_quoted {p : Path} {names : List Name} (hnames : fs.namesIn p = .ok names)
    (hnodup : names.Nodup) {cs : List Char} (hspecial : cs.any isSpecial = true)
    (next : List Component → Path → List Path) {rest : List Component} (hrest : rest ≠ []) :
    inDirectory fs false next (cs.map quotedToken) rest p =
      if encodePiece cs ∈ names then next rest (below p (encodePiece cs)) else [] := by
  obtain ⟨_, hdot, hdots⟩ := not_special_encodePiece hspecial
  have hvisit : ∀ name, visit fs false next (cs.map quotedToken) rest name (below p name) =
      if name = encodePiece cs then next rest (below p (encodePiece cs)) else [] := by
    intro name
    rw [visit_quoted cs next hrest]
    split
    · rename_i h
      rw [h]
    · rfl
  have hspecials : specialNames.filter (matchesName (cs.map quotedToken)) = [] := by
    rw [List.filter_eq_nil_iff]
    intro name hname h
    rw [matchesName_quoted.mp h] at hname
    rcases contains_specialNames_iff.mp (List.contains_iff_mem.mpr hname) with h | h
    · exact hdot h
    · exact hdots h
  simp only [inDirectory, hnames, hvisit, hspecials, ite_self, List.flatMap_nil, List.append_nil]
  exact flatMap_of_name hnodup _ _

/-- One piece of a directory leads to the entry of this name, whether it has to be escaped or not. -/
theorem descend_piece (hfs : fs.IsPlainTree) {p : Path} {l : Location} (hp : fs.Denotes p l)
    (hd : fs.isDirectoryAt l = true) {cs : List Char} (hcs : '/' ∉ cs) (depth : Nat)
    {rest : List Component} (hrest : rest ≠ []) :
    descend fs false (depth + 1) (cs.map quotedToken :: rest) p =
      if specialNames.contains (encodePiece cs) ||
          (fs.lookup false (below p (encodePiece cs))).toBool then
        descend fs false depth rest (below p (encodePiece cs))
      else [] := by
  rw [descend, hp.isDirectory_eq, hd, literal?_quoted]
  simp only [Bool.not_true, Bool.false_eq_true, if_false]
  cases hspecial : cs.any isSpecial with
  | false =>
    simp [proceed, hrest, encodePiece]
  | true =>
    obtain ⟨hne, hdot, hdots⟩ := not_special_encodePiece hspecial
    have hnot : specialNames.contains (encodePiece cs) = false := by
      rw [Bool.eq_false_iff, Ne, contains_specialNames_iff, not_or]
      exact ⟨hdot, hdots⟩
    have hthere : encodePiece cs ∈ fs.children l ↔
        (fs.lookup false (below p (encodePiece cs))).toBool = true := by
      rw [mem_children_iff,
        lookup_below hfs hp hd (separator_not_mem_encodePiece hcs) hne hdot hdots]
    simp only [if_true, hnot, Bool.false_or, inDirectory_quoted (namesIn_of_denotes hp hd)
      (nodup_children hfs.toIsTree l) hspecial _ hrest, hthere]

/-- **The search goes to the directory first.** -/
theorem descend_pieces (hfs : fs.IsPlainTree) {pieces : List (List Char)}
    (hpieces : ∀ cs ∈ pieces, '/' ∉ cs) {tail : List Component} (htail : tail ≠ []) (depth : Nat)
    (p : Path) :
    descend fs false (pieces.length + depth) (pieces.map (·.map quotedToken) ++ tail) p =
      (spelled? fs p (pieces.map encodePiece)).elim [] (descend fs false depth tail) := by
  induction pieces generalizing p with
  | nil =>
    simp only [List.length_nil, Nat.zero_add, List.map_nil, List.nil_append, spelled?]
    split
    · rfl
    · rename_i h
      exact descend_of_not_directory (by simpa using h) _ _ _
  | cons cs pieces ih =>
    have hdepth : (cs :: pieces).length + depth = pieces.length + depth + 1 := by simp; omega
    rw [hdepth, List.map_cons, List.map_cons, List.cons_append, spelled?]
    cases hdir : fs.isDirectory p with
    | false => rw [descend_of_not_directory hdir]; rfl
    | true =>
      obtain ⟨l, hl, hd⟩ := isDirectory_iff.mp hdir
      rw [descend_piece hfs hl hd (hpieces cs (by simp)) _ (by simp [htail]),
        ih fun x hx => hpieces x (List.mem_cons_of_mem _ hx), Bool.true_and]
      split <;> rfl

/-! ## The walk below the directory -/

/-- The names on the way to the files with an extension, found by walks of at most `depth` steps. -/
def filesFrom (fs : FileSystem) (extension : String) : Nat → Location → List (List Name)
  | 0, _ => []
  | depth + 1, l =>
    if fs.isDirectoryAt l then
      (fs.children l).flatMap fun n =>
        (filesFrom fs extension depth (l ++ [n])).map (n :: ·) ++
          if matchesName (extensionTokens extension) n then [[n]] else []
    else []

/-- The path behind the names on a way. -/
def spell (p : Path) (names : List Name) : Path := names.foldl below p

theorem spell_append_singleton (p : Path) (names : List Name) (n : Name) :
    spell p (names ++ [n]) = below (spell p names) n := by
  simp [spell]

theorem isAnyDirectories_extensionTokens (extension : String) :
    isAnyDirectories (extensionTokens extension) = false := by
  rw [Bool.eq_false_iff]
  simp [isAnyDirectories, extensionTokens]

/-- One step: in a directory `**` goes into every entry, and compares its name. -/
theorem descend_stars {files : Component} (hany : isAnyDirectories files = false) (depth : Nat) {p : Path}
    {l : Location} (hp : fs.Denotes p l) (hd : fs.isDirectoryAt l = true) :
    descend fs false (depth + 1) [[.anyDirectories], files] p = (fs.children l).flatMap fun n =>
      descend fs false depth [[.anyDirectories], files] (below p n) ++
        if matchesName files n then [below p n] else [] := by
  have hstars : isAnyDirectories [.anyDirectories] = true := rfl
  -- what is no directory is not entered
  have hinside : ∀ n, (if fs.isDirectory (below p n) then
      descend fs false depth [[.anyDirectories], files] (below p n) else []) =
      descend fs false depth [[.anyDirectories], files] (below p n) := by
    intro n
    split
    · rfl
    · rename_i h
      rw [descend_of_not_directory (by simpa using h)]
  rw [descend, hp.isDirectory_eq, hd]
  simp only [Bool.not_true, Bool.false_eq_true, if_false, Token.literal?, inDirectory,
    namesIn_of_denotes hp hd, List.head?_cons, Option.some.injEq, reduceCtorEq, List.flatMap_nil,
    List.append_nil, visit, hstars, if_true, List.dropWhile_cons, hany, List.isEmpty_cons, hinside,
    compareName, proceed, List.isEmpty_nil, Bool.false_and]

/-- **`**` visits everything below the directory.** -/
theorem descend_files (hfs : fs.IsPlainTree) (extension : String) (depth : Nat) {p : Path}
    {l : Location} (hp : fs.Denotes p l) :
    descend fs false depth [[.anyDirectories], extensionTokens extension] p =
      (filesFrom fs extension depth l).map (spell p) := by
  induction depth generalizing p l with
  | zero => rfl
  | succ depth ih =>
    cases hd : fs.isDirectoryAt l with
    | false =>
      rw [descend_of_not_directory (by rw [hp.isDirectory_eq, hd])]
      simp [filesFrom, hd]
    | true =>
      rw [descend_stars (isAnyDirectories_extensionTokens extension) depth hp hd, filesFrom, if_pos hd,
        List.map_flatMap]
      refine List.flatMap_congr fun n hn => ?_
      rw [ih (denotes_below hfs hp (mem_children_iff.mp hn)), List.map_append, List.map_map]
      congr 1
      split <;> rfl

theorem ne_nil_of_mem_filesFrom {extension : String} {depth : Nat} {l : Location} {way : List Name}
    (h : way ∈ filesFrom fs extension depth l) : way ≠ [] := by
  cases depth with
  | zero => cases h
  | succ depth =>
    rw [filesFrom] at h
    split at h
    · obtain ⟨n, _, hn⟩ := List.mem_flatMap.mp h
      rcases List.mem_append.mp hn with hn | hn
      · obtain ⟨rest, _, rfl⟩ := List.mem_map.mp hn
        simp
      · split at hn
        · rw [List.mem_singleton.mp hn]; simp
        · cases hn
    · cases h

/-- A way begins with a name in the directory, and ends there or goes on. -/
theorem mem_filesFrom_succ_iff (hfs : fs.IsPlainTree) {extension : String} {depth : Nat} {l : Location}
    {way : List Name} :
    way ∈ filesFrom fs extension (depth + 1) l ↔ ∃ n, fs.entryAt? (l ++ [n]) ≠ none ∧
      ((∃ rest ∈ filesFrom fs extension depth (l ++ [n]), way = n :: rest) ∨
        matchesName (extensionTokens extension) n = true ∧ way = [n]) := by
  rw [filesFrom]
  constructor
  · intro h
    split at h
    · obtain ⟨n, hn, hw⟩ := List.mem_flatMap.mp h
      refine ⟨n, mem_children_iff.mp hn, ?_⟩
      rcases List.mem_append.mp hw with hw | hw
      · obtain ⟨rest, hr, rfl⟩ := List.mem_map.mp hw
        exact Or.inl ⟨rest, hr, rfl⟩
      · split at hw
        · rename_i hm; exact Or.inr ⟨hm, List.mem_singleton.mp hw⟩
        · cases hw
    · cases h
  · rintro ⟨n, hn, hw⟩
    rw [if_pos (hfs.above l n hn), List.mem_flatMap]
    refine ⟨n, mem_children_iff.mpr hn, List.mem_append.mpr ?_⟩
    rcases hw with ⟨rest, hr, rfl⟩ | ⟨hm, rfl⟩
    · exact Or.inl (List.mem_map.mpr ⟨rest, hr, rfl⟩)
    · exact Or.inr (by simp [hm])

/-- **Each name with the extension is found**, if the walk may be long enough. -/
theorem mem_filesFrom_iff (hfs : fs.IsPlainTree) {extension : String} {depth : Nat} {l : Location}
    {way : List Name} :
    way ∈ filesFrom fs extension depth l ↔
      ∃ before n, way = before ++ [n] ∧ matchesName (extensionTokens extension) n = true ∧
        fs.entryAt? (l ++ way) ≠ none ∧ way.length ≤ depth := by
  induction depth generalizing l way with
  | zero =>
    simp only [filesFrom, List.not_mem_nil, false_iff]
    rintro ⟨before, n, rfl, _, _, h⟩
    simp at h
  | succ depth ih =>
    have hsplit : ∀ (n : Name) (rest : Location), l ++ n :: rest = (l ++ [n]) ++ rest := by simp
    rw [mem_filesFrom_succ_iff hfs]
    constructor
    · rintro ⟨n, hn, ⟨rest, hr, rfl⟩ | ⟨hm, rfl⟩⟩
      · obtain ⟨before, last, rfl, hm, he, hlen⟩ := ih.mp hr
        exact ⟨n :: before, last, rfl, hm, hsplit n _ ▸ he, by simpa using hlen⟩
      · exact ⟨[], n, rfl, hm, hn, by simp⟩
    · rintro ⟨before, last, rfl, hm, he, hlen⟩
      cases before with
      | nil => exact ⟨last, he, Or.inr ⟨hm, rfl⟩⟩
      | cons n before =>
        rw [List.cons_append, hsplit] at he
        have hrest := ih.mpr ⟨before, last, rfl, hm, he, by simpa using hlen⟩
        exact ⟨n, entryAt?_of_append hfs.isNested he, Or.inl ⟨_, hrest, rfl⟩⟩

/-- **Nothing is found twice.** -/
theorem nodup_filesFrom (hfs : fs.IsPlainTree) (extension : String) (depth : Nat) (l : Location) :
    (filesFrom fs extension depth l).Nodup := by
  induction depth generalizing l with
  | zero => simp [filesFrom]
  | succ depth ih =>
    rw [filesFrom]
    split
    · rw [List.nodup_flatMap]
      refine ⟨fun n _ => ?_, ?_⟩
      · refine List.Nodup.append ((ih (l ++ [n])).map (List.cons_injective)) (by split <;> simp) ?_
        intro way hway hlast
        obtain ⟨rest, hrest, rfl⟩ := List.mem_map.mp hway
        split at hlast
        · have := List.mem_singleton.mp hlast
          exact ne_nil_of_mem_filesFrom hrest (List.cons.inj this).2
        · cases hlast
      · refine (nodup_children hfs.toIsTree l).imp fun {n m} hnm => ?_
        have hhead : ∀ (k : Name) (way : List Name), way ∈
            (filesFrom fs extension depth (l ++ [k])).map (k :: ·) ++
              (if matchesName (extensionTokens extension) k then [[k]] else []) →
            way.head? = some k := by
          intro k way hway
          rcases List.mem_append.mp hway with hway | hway
          · obtain ⟨rest, _, rfl⟩ := List.mem_map.mp hway
            rfl
          · split at hway
            · rw [List.mem_singleton.mp hway]; rfl
            · cases hway
        intro way hn hm
        have := (hhead n way hn).symm.trans (hhead m way hm)
        exact hnm (Option.some.inj this)
    · simp

/-! ## Paths on the way -/

theorem denotes_spell (hfs : fs.IsPlainTree) {p : Path} {l : Location} (hp : fs.Denotes p l)
    {way : List Name} (he : fs.entryAt? (l ++ way) ≠ none) : fs.Denotes (spell p way) (l ++ way) := by
  induction way using List.reverseRecOn with
  | nil => simpa [spell] using hp
  | append_singleton way n ih =>
    rw [← List.append_assoc] at he ⊢
    rw [spell_append_singleton]
    have hd := isDirectoryAt_iff.mp (hfs.above _ n he)
    exact denotes_below hfs (ih (by simp [hd])) he

theorem place_spell (hfs : fs.IsPlainTree) {p : Path} {l : Location} (hp : fs.Denotes p l)
    {way : List Name} (he : fs.entryAt? (l ++ way) ≠ none) :
    (spell p way).place = p.place ++ way.map .normal := by
  induction way using List.reverseRecOn with
  | nil => simp [spell]
  | append_singleton way n ih =>
    rw [← List.append_assoc] at he
    have hn := hfs.named _ n he
    have hway := entryAt?_of_append hfs.isNested (k := [n]) he
    rw [spell_append_singleton,
      place_below (denotes_spell hfs hp hway).ne_nil hn.no_separator, ih hway,
      component?_of_isName hn]
    simp

/-- The file of a name in a directory, and a path that leads to it. -/
structure IsFileIn (fs : FileSystem) (p : Path) (d : Location) (n : Name) : Prop where
  pieces : ∃ ps, p.pieces = ps ++ [n]
  denotes : fs.Denotes p (d ++ [n])
  name : IsName n
  file : (fs.bytesAt? (d ++ [n])).isSome

theorem entryAt?_of_bytesAt? {l : Location} (h : (fs.bytesAt? l).isSome) : fs.entryAt? l ≠ none := by
  intro he
  simp [bytesAt?, he] at h

theorem isFileIn_spell (hfs : fs.IsPlainTree) {p : Path} {l : Location} (hp : fs.Denotes p l)
    {before : List Name} {n : Name} (h : (fs.bytesAt? (l ++ (before ++ [n]))).isSome) :
    IsFileIn fs (spell p (before ++ [n])) (l ++ before) n := by
  have he := entryAt?_of_bytesAt? h
  have hden := denotes_spell hfs hp he
  rw [← List.append_assoc] at h he hden
  have hn := hfs.named _ n he
  refine ⟨?_, hden, hn, h⟩
  obtain ⟨ps, hps⟩ := pieces_below
    (denotes_spell hfs hp (entryAt?_of_append hfs.isNested (k := [n]) he)).ne_nil
  exact ⟨ps, by rw [spell_append_singleton, hps n hn.no_separator]⟩

/-- The way can be read off the place. -/
theorem spell_injective (hfs : fs.IsPlainTree) {p : Path} {l : Location} (hp : fs.Denotes p l)
    {way way' : List Name} (he : fs.entryAt? (l ++ way) ≠ none) (he' : fs.entryAt? (l ++ way') ≠ none)
    (h : (spell p way).place = (spell p way').place) : way = way' := by
  rw [place_spell hfs hp he, place_spell hfs hp he', List.append_cancel_left_eq] at h
  exact List.map_injective_iff.mpr (fun _ _ hn => Component.normal.inj hn) h

/-! ## The listing -/

/-- The files with an extension below a directory, each once and in order. -/
structure IsListing (fs : FileSystem) (extension : String) (p : Path) (l : Location)
    (found : List Path) : Prop where
  denotes : fs.Denotes p l
  directory : fs.isDirectoryAt l = true
  ordered : found.Pairwise fun q r => q.key < r.key
  mem_iff : ∀ q, q ∈ found ↔ ∃ before n, q = spell p (before ++ [n]) ∧ HasExtension extension n ∧
    (fs.bytesAt? (l ++ (before ++ [n]))).isSome

namespace IsListing

variable {extension : String} {p : Path} {l : Location} {found : List Path}

theorem isFileIn (hfs : fs.IsPlainTree) (h : IsListing fs extension p l found) {q : Path}
    (hq : q ∈ found) : ∃ d n, IsFileIn fs q d n ∧ HasExtension extension n := by
  obtain ⟨before, n, rfl, hext, hb⟩ := (h.mem_iff q).mp hq
  exact ⟨l ++ before, n, isFileIn_spell hfs h.denotes hb, hext⟩

/-- No two of the paths lead to one file. -/
theorem eq_of_denotes (hfs : fs.IsPlainTree) (h : IsListing fs extension p l found) {q r : Path}
    (hq : q ∈ found) (hr : r ∈ found) {m : Location} (hqm : fs.Denotes q m) (hrm : fs.Denotes r m) :
    q = r := by
  obtain ⟨before, n, rfl, _, hb⟩ := (h.mem_iff q).mp hq
  obtain ⟨before', n', rfl, _, hb'⟩ := (h.mem_iff r).mp hr
  have hl := (denotes_spell hfs h.denotes (entryAt?_of_bytesAt? hb)).unique hqm
  have hl' := (denotes_spell hfs h.denotes (entryAt?_of_bytesAt? hb')).unique hrm
  rw [List.append_cancel_left (hl.trans hl'.symm)]

/-- The paths of two files in one directory differ in their last pieces only. -/
theorem pieces_congr (hfs : fs.IsPlainTree) (h : IsListing fs extension p l found) {q r : Path}
    (hq : q ∈ found) (hr : r ∈ found) {d : Location} {n m : Name} (hqn : IsFileIn fs q d n)
    (hrm : IsFileIn fs r d m) : ∃ ps, q.pieces = ps ++ [n] ∧ r.pieces = ps ++ [m] := by
  obtain ⟨before, n', rfl, _, hb⟩ := (h.mem_iff q).mp hq
  obtain ⟨before', m', rfl, _, hb'⟩ := (h.mem_iff r).mp hr
  have hl := (denotes_spell hfs h.denotes (entryAt?_of_bytesAt? hb)).unique hqn.denotes
  have hl' := (denotes_spell hfs h.denotes (entryAt?_of_bytesAt? hb')).unique hrm.denotes
  rw [← List.append_assoc] at hl hl'
  obtain ⟨hbefore, hn⟩ := List.append_inj' hl rfl
  obtain ⟨hbefore', hm⟩ := List.append_inj' hl' rfl
  cases hn
  cases hm
  have hsame := List.append_cancel_left (hbefore.trans hbefore'.symm)
  subst hsame
  have he := entryAt?_of_bytesAt? hb
  rw [← List.append_assoc] at he
  obtain ⟨ps, hps⟩ := pieces_below
    (denotes_spell hfs h.denotes (entryAt?_of_append hfs.isNested (k := [n]) he)).ne_nil
  refine ⟨ps, ?_, ?_⟩
  · rw [spell_append_singleton, hps n hqn.name.no_separator]
  · rw [spell_append_singleton, hps m hrm.name.no_separator]

theorem nodup (h : IsListing fs extension p l found) : found.Nodup := by
  have hirrefl : Std.Irrefl fun q r : Path => q.key < r.key := ⟨fun q => lt_irrefl q.key⟩
  exact h.ordered.nodup

end IsListing

/-- A directory as the search for its files reaches it. -/
def reached? (fs : FileSystem) (directory : Path) : Option Path :=
  spelled? fs (if startsAtTop directory.display.toList then Path.root else Path.current)
    ((directoryPieces directory.display.toList).map encodePiece)

/-- A search finds nothing below a relative path with an empty piece right behind a leading `.`. -/
def IsBlind (p : Path) : Prop :=
  p.isAbsolute = false ∧ (p.pieces.dropWhile (· == [dot])).head? = some []

/-- What is below a directory in sight is in sight. -/
theorem not_isBlind_join {p : Path} {n : Name} (hp : p.bytes ≠ []) (hn : IsName n)
    (h : ¬ IsBlind p) : ¬ IsBlind (p.join ⟨n⟩) := by
  obtain ⟨ps, _, hpieces, hj⟩ := pieces_join hp
  rintro ⟨hrel, hhead⟩
  rw [isAbsolute_join hp hn.no_separator] at hrel
  refine h ⟨hrel, ?_⟩
  rw [hj n hn.no_separator, List.dropWhile_append] at hhead
  -- the name is not empty, so the empty piece stands before it
  split at hhead
  · simp [hn.ne_dot, hn.ne_nil] at hhead
  · rename_i hrest
    obtain ⟨first, more, hps⟩ := List.exists_cons_of_ne_nil (mt List.isEmpty_iff.mpr hrest)
    rw [hps] at hhead
    rcases hpieces with he | he <;> rw [he]
    · rw [hps]; exact hhead
    · rw [List.dropWhile_append, if_neg hrest, hps]; exact hhead

theorem pieces_ofString (text : String) :
    (Path.ofString text).pieces = (between '/' text.toList).map encodePiece := by
  have hslash : String.utf8EncodeChar '/' = [separator] := by decide
  have hother : ∀ c, c ≠ '/' → separator ∉ String.utf8EncodeChar c := by
    intro c hc hm
    have := (mem_utf8EncodeChar_iff (b := separator) (by decide)).mp hm
    exact hc (Char.toNat_inj.mp this)
  have hpiece : encodePiece = List.flatMap String.utf8EncodeChar := funext encode_ofList
  rw [pieces_eq, hpiece, Path.ofString, encode_eq, between_flatMap hslash hother]

theorem startsAtTop_iff {text : String} (h : text ≠ "") :
    startsAtTop text.toList = (Path.ofString text).isAbsolute := by
  rw [Bool.eq_iff_iff, isAbsolute_iff, pieces_ofString]
  cases hc : text.toList with
  | nil => exact absurd (String.toList_eq_nil_iff.mp hc) h
  | cons c cs =>
    by_cases hslash : c = '/'
    · simp [startsAtTop, hslash, between_cons_self, between_ne_nil, encodePiece, encode]
    · obtain ⟨piece, pieces, hx⟩ := List.exists_cons_of_ne_nil (between_ne_nil '/' cs)
      have hne : encodePiece (c :: piece) ≠ [] := by
        rw [encodePiece, Ne, encode_eq_nil_iff]
        intro hnil
        have := congrArg String.toList hnil
        rw [String.toList_ofList] at this
        cases this
      simp [startsAtTop, hslash, between_cons_of_ne hslash hx, hne]

/-- The pieces of a directory are those of its path, without the empty one before a leading slash. -/
theorem directoryPieces_ofString {text : String} (h : text ≠ "") :
    (directoryPieces text.toList).map encodePiece =
      if (Path.ofString text).isAbsolute then (Path.ofString text).pieces.tail
      else (Path.ofString text).pieces := by
  rw [← startsAtTop_iff h, pieces_ofString]
  cases hc : text.toList with
  | nil => exact absurd (String.toList_eq_nil_iff.mp hc) h
  | cons c cs =>
    by_cases hslash : c = '/'
    · simp [directoryPieces, startsAtTop, hslash, between_cons_self]
    · simp [directoryPieces, startsAtTop, hslash]

theorem reached?_ofString_eq {text : String} (h : text ≠ "") :
    reached? fs (Path.ofString text) =
      spelled? fs (if (Path.ofString text).isAbsolute then Path.root else Path.current)
        (if (Path.ofString text).isAbsolute then (Path.ofString text).pieces.tail
          else (Path.ofString text).pieces) := by
  have hdisplay : (Path.ofString text).display = text := decodeLossy_encode text
  rw [reached?, hdisplay, directoryPieces_ofString h, startsAtTop_iff h]

/-- The way of an absolute path, behind the empty piece that it begins with. -/
theorem route_of_absolute {p : Path} (h : p.isAbsolute = true) {rest : List Bytes}
    (hp : p.pieces = [] :: rest) :
    fs.route (fs.origin p) p.steps = fs.route [] (rest.map stepOfPiece) := by
  have hstay : stepOfPiece [] = .here ∨ stepOfPiece [] = .slash := .inr rfl
  rw [origin, h, steps, hp, List.map_cons, if_pos rfl, route_stay hstay, if_pos isDirectoryAt_nil]

theorem route_of_relative {p : Path} (h : p.isAbsolute = false) :
    fs.route (fs.origin p) p.steps = fs.route fs.workingDirectory (p.pieces.map stepOfPiece) := by
  rw [origin, h, steps]
  rfl

/-- **A directory whose path is text is reached**, and by a path to the same place. -/
theorem reached?_of_leads (hfs : fs.IsNested) {text : String} {k : Nat} {l : Location}
    (h : fs.Leads (Path.ofString text) k l) (hd : fs.isDirectoryAt l = true)
    (hsight : ¬ IsBlind (Path.ofString text)) :
    ∃ q, reached? fs (Path.ofString text) = some q ∧ fs.Leads q k l ∧
      q.place = (Path.ofString text).place := by
  have hne : text ≠ "" := fun e => h.ne_nil (encode_eq_nil_iff.mpr e)
  have hsep : ∀ n ∈ (Path.ofString text).pieces, separator ∉ n := fun n => no_separator_of_mem_pieces
  have hnul : ∀ n ∈ (Path.ofString text).pieces, (0 : UInt8) ∉ n := fun n hn h0 =>
    h.no_nul ((mem_bytes_iff (by decide)).mpr ⟨n, hn, h0⟩)
  have harrives := h.arrives_steps hd
  rw [reached?_ofString_eq hne]
  by_cases habs : (Path.ofString text).isAbsolute = true
  · obtain ⟨rest, _, hpieces⟩ := isAbsolute_iff.mp habs
    have hslash : stepOfPiece [] = .slash := rfl
    rw [steps, hpieces, List.map_cons, hslash, origin, habs, if_pos rfl] at harrives
    rw [if_pos habs, if_pos habs, hpieces, List.tail_cons]
    rw [hpieces] at hsep hnul
    have htop : fs.Leads Path.root maxLinks [] :=
      leads_of_silent hfs (by decide) (by decide) (by decide)
    have htopSight : isCurrent Path.root = false := by decide
    cases harrives with
    | stay _ _ hrest =>
      obtain ⟨q, hq, hleads, hplace⟩ := spelled?_of_arrives hfs htop
        (fun n hn => hsep n (List.mem_cons_of_mem _ hn))
        (fun n hn => hnul n (List.mem_cons_of_mem _ hn)) hrest hd (by simp [htopSight])
      have hroot : Path.root.place = [.root] := by decide
      refine ⟨q, hq, hleads, ?_⟩
      rw [hplace, hroot, place, habs, hpieces]
      simp [component?, isSilent]
  · rw [Bool.not_eq_true] at habs
    have hstart : fs.Leads Path.current maxLinks fs.workingDirectory :=
      leads_of_silent hfs (by decide) (by decide) (by decide)
    rw [origin, habs, if_neg Bool.false_ne_true] at harrives
    obtain ⟨q, hq, hleads, hplace⟩ := spelled?_of_arrives hfs hstart hsep hnul harrives hd
      fun _ hhead => hsight ⟨habs, hhead⟩
    have hcurrent : Path.current.place = [] := by decide
    refine ⟨q, by simpa [habs] using hq, hleads, ?_⟩
    rw [hplace, hcurrent, place, habs]
    simp

theorem reached?_ofString (hfs : fs.IsPlainTree) {text : String} {l : Location}
    (h : fs.Denotes (Path.ofString text) l) (hd : fs.isDirectoryAt l = true)
    (hsight : ¬ IsBlind (Path.ofString text)) :
    ∃ q, reached? fs (Path.ofString text) = some q ∧ fs.Denotes q l ∧
      q.place = (Path.ofString text).place := by
  obtain ⟨k, hk⟩ := exists_leads h
  obtain ⟨q, hq, hleads, hplace⟩ := reached?_of_leads hfs.isNested hk hd hsight
  exact ⟨q, hq, hleads.denotes hd, hplace⟩

theorem reached?_of_isBlind {text : String} (hne : text ≠ "") (h : IsBlind (Path.ofString text)) :
    reached? fs (Path.ofString text) = none := by
  rw [reached?_ofString_eq hne, h.1]
  exact spelled?_of_blind (by decide) (by decide) h.2

/-- **And only a directory is reached.** -/
theorem isDirectory_of_reached? (hfs : fs.IsPlainTree) {text : String} (hne : text ≠ "")
    (h0 : (0 : UInt8) ∉ (Path.ofString text).bytes) {q : Path}
    (h : reached? fs (Path.ofString text) = some q) : fs.isDirectory (Path.ofString text) = true := by
  have hbytes : (Path.ofString text).bytes ≠ [] := fun e => hne (encode_eq_nil_iff.mp e)
  have hsep : ∀ n ∈ (Path.ofString text).pieces, separator ∉ n := fun n => no_separator_of_mem_pieces
  rw [reached?_ofString_eq hne] at h
  obtain ⟨m, hm, hd⟩ : ∃ m, fs.route (fs.origin (Path.ofString text)) (Path.ofString text).steps =
      .ok (.found m) ∧ fs.isDirectoryAt m = true := by
    by_cases habs : (Path.ofString text).isAbsolute = true
    · obtain ⟨rest, _, hpieces⟩ := isAbsolute_iff.mp habs
      rw [if_pos habs, if_pos habs, hpieces, List.tail_cons] at h
      rw [hpieces] at hsep
      obtain ⟨m, hm, hd⟩ := route_of_spelled? hfs (denotes_root hfs)
        (fun n hn => hsep n (List.mem_cons_of_mem _ hn)) h
      exact ⟨m, by rw [route_of_absolute habs hpieces, hm], hd⟩
    · rw [if_neg habs, if_neg habs] at h
      obtain ⟨m, hm, hd⟩ := route_of_spelled? hfs (denotes_current hfs) hsep h
      exact ⟨m, by rw [route_of_relative (by simpa using habs), hm], hd⟩
  refine isDirectory_iff.mpr ⟨m, ?_, hd⟩
  rw [Denotes, locate_eq_route hfs true h0 hbytes]
  exact hm

theorem no_slash_of_mem_directoryPieces {directory cs : List Char}
    (h : cs ∈ directoryPieces directory) : '/' ∉ cs := by
  cases directory with
  | nil => cases h
  | cons c rest =>
    rw [directoryPieces] at h
    split at h <;> exact not_mem_of_mem_between cs h

/-- Where a search for the files below a directory starts. -/
def startOf (directory : Path) : Path :=
  if startsAtTop directory.display.toList then Path.root else Path.current

/-- Files are found by their names if their pattern can be read. -/
theorem filesBelow_eq {extension : String} (h : '/' ∉ extension.toList) (directory : Path) :
    filesBelow fs directory extension =
      (tokenize (filesPattern directory extension)).bind fun _ =>
        (tokenize ('*' :: '.' :: extension.toList)).map fun files =>
          Path.sort ((descend fs false
            (maxSteps fs (filesComponents directory.display.toList files))
            (filesComponents directory.display.toList files) (startOf directory)).filter fs.isFile) := by
  rw [filesBelow, filesPattern, ofChars_filesPattern h]
  cases tokenize (escape directory.display.toList ++ "/**/*.".toList ++ extension.toList) with
  | error e => rfl
  | ok tokens => cases tokenize ('*' :: '.' :: extension.toList) <;> rfl

/-- The pieces of a directory are steps of the search, and there are enough for the tree behind them. -/
theorem exists_maxSteps_eq (fs : FileSystem) (directory : List Char) (files : Component) :
    ∃ depth, fs.entries.length ≤ depth ∧
      maxSteps fs (filesComponents directory files) = (directoryPieces directory).length + (depth + 1) := by
  refine ⟨2 + (maxLinks + 1) * (fs.entries.length + 1), by unfold maxLinks; omega, ?_⟩
  simp [maxSteps, filesComponents]
  omega

/-- The search is the way to the directory, and the walk from there. -/
theorem filesBelow_eq_sort (hfs : fs.IsPlainTree) {extension : String}
    (h : IsPlainExtension extension) (directory : Path) : ∃ depth, fs.entries.length ≤ depth ∧
      filesBelow fs directory extension = .ok (Path.sort (((reached? fs directory).elim []
        (descend fs false depth [[.anyDirectories], extensionTokens extension])).filter fs.isFile)) := by
  obtain ⟨depth, hdepth, hsteps⟩ :=
    exists_maxSteps_eq fs directory.display.toList (extensionTokens extension)
  obtain ⟨tokens, htokens⟩ := tokenize_filesPattern h directory.display.toList
  refine ⟨depth + 1, by omega, ?_⟩
  rw [filesBelow_eq h.no_slash, filesPattern, htokens, tokenize_extension h]
  simp only [Except.bind, Except.map, hsteps]
  rw [filesComponents, descend_pieces hfs (fun cs => no_slash_of_mem_directoryPieces) (by simp)]
  rfl

theorem filesBelow_of_not_reached (hfs : fs.IsPlainTree) {extension : String}
    (h : IsPlainExtension extension) {directory : Path} (hr : reached? fs directory = none) :
    filesBelow fs directory extension = .ok [] := by
  obtain ⟨depth, _, he⟩ := filesBelow_eq_sort hfs h directory
  rw [he, hr]
  simp [Path.sort]

/-- There is nothing to be found below what is no directory. -/
theorem filesBelow_of_not_directory (hfs : fs.IsPlainTree) {extension : String}
    (h : IsPlainExtension extension) {text : String} (hne : text ≠ "")
    (h0 : (0 : UInt8) ∉ (Path.ofString text).bytes)
    (hnot : fs.isDirectory (Path.ofString text) = false) :
    filesBelow fs (Path.ofString text) extension = .ok [] := by
  refine filesBelow_of_not_reached hfs h ?_
  rw [Option.eq_none_iff_forall_ne_some]
  intro q hq
  rw [isDirectory_of_reached? hfs hne h0 hq] at hnot
  cases hnot

/-- **What is found are the files with the extension**, below a directory that is reached. -/
theorem filesBelow_of_reached (hfs : fs.IsPlainTree) {extension : String}
    (h : IsPlainExtension extension) {directory p : Path} (hr : reached? fs directory = some p)
    {l : Location} (hp : fs.Denotes p l) :
    ∃ found, filesBelow fs directory extension = .ok found ∧ IsListing fs extension p l found := by
  obtain ⟨depth, hdepth, he⟩ := filesBelow_eq_sort hfs h directory
  have hd : fs.isDirectoryAt l = true := by
    rw [← hp.isDirectory_eq]; exact spelled?_eq_some hr
  rw [hr, Option.elim_some, descend_files hfs extension depth hp] at he
  refine ⟨_, he, hp, hd, ?_, ?_⟩
  · have hentry : ∀ way ∈ filesFrom fs extension depth l, fs.entryAt? (l ++ way) ≠ none := by
      intro way hway
      obtain ⟨_, _, _, _, hentry, _⟩ := (mem_filesFrom_iff hfs).mp hway
      exact hentry
    have hnodup : ((filesFrom fs extension depth l).map (spell p)).Nodup := by
      refine (nodup_filesFrom hfs extension depth l).map_on fun a ha b hb hab => ?_
      exact spell_injective hfs hp (hentry a ha) (hentry b hb) (by rw [hab])
    refine pairwise_lt_sort (hnodup.filter _) fun q hq r hr hkey => ?_
    -- equal keys spell one place, and the place tells the way
    obtain ⟨a, ha, rfl⟩ := List.mem_map.mp (List.mem_filter.mp hq).1
    obtain ⟨b, hb, rfl⟩ := List.mem_map.mp (List.mem_filter.mp hr).1
    rw [spell_injective hfs hp (hentry a ha) (hentry b hb) (place_congr (key_inj.mp hkey))]
  · intro q
    rw [(perm_sort _).mem_iff, List.mem_filter, List.mem_map]
    constructor
    · rintro ⟨⟨way, hway, rfl⟩, hfile⟩
      obtain ⟨before, n, rfl, hm, hentry, _⟩ := (mem_filesFrom_iff hfs).mp hway
      rw [(denotes_spell hfs hp hentry).isFile_eq hfs] at hfile
      exact ⟨before, n, rfl, (matchesName_files h).mp hm, hfile⟩
    · rintro ⟨before, n, rfl, hext, hb⟩
      have hentry := entryAt?_of_bytesAt? hb
      refine ⟨⟨_, (mem_filesFrom_iff hfs).mpr ⟨before, n, rfl, (matchesName_files h).mpr hext,
        hentry, ?_⟩, rfl⟩, ?_⟩
      · have := length_le hfs.isNested hentry
        rw [List.length_append] at this
        omega
      · rw [(denotes_spell hfs hp hentry).isFile_eq hfs, hb]

/-- Nothing is found below a directory that the search does not get to, and its listing below any other. -/
theorem filesBelow_cases (hfs : fs.IsPlainTree) {extension : String} (h : IsPlainExtension extension)
    (directory : Path) :
    (reached? fs directory = none ∧ filesBelow fs directory extension = .ok []) ∨
      ∃ p l found, reached? fs directory = some p ∧ filesBelow fs directory extension = .ok found ∧
        IsListing fs extension p l found := by
  cases hr : reached? fs directory with
  | none => exact Or.inl ⟨rfl, filesBelow_of_not_reached hfs h hr⟩
  | some p =>
    obtain ⟨l, hl, _⟩ := isDirectory_iff.mp (spelled?_eq_some hr)
    obtain ⟨found, hfound, hlisting⟩ := filesBelow_of_reached hfs h hr hl
    exact Or.inr ⟨p, l, found, rfl, hfound, hlisting⟩

end ContractBindings.Glob
