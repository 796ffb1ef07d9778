import ContractBindings.Proofs.FileSystem.Names
import ContractBindings.Proofs.Glob.Listing

/-!
# Searches through links

What `filesBelow` finds in a tree that may hold links, for an extension that may hold wildcards.  Both
directions are weaker than in a tree without links: nothing is said about how often something is found, and
only the entries of the directory itself are known to be found.

* `mem_descend_pieces`: what is found from where the search gets to the directory is found;
* `below_spell_mem_descend`: and so is what `**` finds along directories;
* `below_mem_filesBelow`: so a file in the directory is found if the pattern matches its name;
* `exists_of_mem_descend`, `exists_of_mem_filesBelow`: and whatever is found is the path of an entry whose name
  the pattern matches.
-/

set_option autoImplicit false

namespace ContractBindings.Glob

open Text ContractBindings.Path FileSystem

variable {fs : FileSystem} {p q a : Path} {k k' : Nat} {l : Location} {n : Name}
  {files : Component} {extension text : String} {found : List Path}

/-! ## The way to the directory -/

/-- What can be looked up below a directory is an entry of it. -/
theorem entryAt?_of_lookup_below (hfs : fs.IsNested) (hp : fs.Leads p k l) (hd : fs.isDirectoryAt l = true)
    (hn : separator ∉ n) (hne : n ≠ []) (hdot : n ≠ [dot]) (hdots : n ≠ [dot, dot])
    (h : (fs.lookup false (below p n)).toBool = true) : fs.entryAt? (l ++ [n]) ≠ none := by
  obtain ⟨m, hlocate, _⟩ := lookup_toBool_iff.mp h
  have h0 : (0 : UInt8) ∉ n := by
    intro hmem
    have hnul := nul_mem_below hp.ne_nil hn hmem
    simp [locate, hnul] at hlocate
  have hstep : stepOfPiece n = .down n := by simp [stepOfPiece, hne, hdot, hdots]
  rw [locate_below_of_leads hfs hp hn h0 fun _ => hne, hstep] at hlocate
  intro hnone
  rw [walk_vacant hd hnone] at hlocate
  cases hlocate

/-- One piece leads to the entry of its name, whether it has to be escaped or not. -/
theorem mem_descend_piece (hfs : fs.IsNested) (hdir : fs.isDirectory p = true) {cs : List Char}
    (hcs : '/' ∉ cs) {rest : List Component} (hrest : rest ≠ []) {depth : Nat}
    (hthere : specialNames.contains (encodePiece cs) = true ∨
      (fs.lookup false (below p (encodePiece cs))).toBool = true)
    (ha : a ∈ descend fs false depth rest (below p (encodePiece cs))) :
    a ∈ descend fs false (depth + 1) (cs.map quotedToken :: rest) p := by
  rw [descend, hdir, literal?_quoted]
  simp only [Bool.not_true, Bool.false_eq_true, if_false]
  cases hspecial : cs.any isSpecial with
  | false =>
    have hgo : (specialNames.contains (encodePiece cs) ||
        (fs.lookup false (below p (encodePiece cs))).toBool) = true := by
      rw [Bool.or_eq_true]
      exact hthere
    have hnot : rest.isEmpty = false := by simpa using hrest
    simp only [Bool.false_eq_true, if_false]
    rw [encodePiece] at hgo ha
    rw [if_pos hgo, proceed, hnot]
    exact ha
  | true =>
    obtain ⟨hne, hdot, hdots⟩ := not_special_encodePiece hspecial
    obtain ⟨l, hl, hd⟩ := isDirectory_iff.mp hdir
    obtain ⟨k, hk⟩ := exists_leads hl
    have hlookup : (fs.lookup false (below p (encodePiece cs))).toBool = true := by
      refine hthere.resolve_left fun hname => ?_
      rcases contains_specialNames_iff.mp hname with h | h
      · exact hdot h
      · exact hdots h
    have hentry := entryAt?_of_lookup_below hfs hk hd (separator_not_mem_encodePiece hcs) hne hdot hdots
      hlookup
    simp only [if_true, inDirectory, namesIn_of_denotes hl hd]
    refine List.mem_append_left _ (List.mem_flatMap.mpr ⟨_, mem_children_iff.mpr hentry, ?_⟩)
    rw [visit_quoted cs _ hrest, if_pos rfl]
    exact ha

/-- **What is found from where the search gets to is found.** -/
theorem mem_descend_pieces (hfs : fs.IsNested) {pieces : List (List Char)}
    (hpieces : ∀ cs ∈ pieces, '/' ∉ cs) {tail : List Component} (htail : tail ≠ []) {depth : Nat}
    (hq : spelled? fs p (pieces.map encodePiece) = some q) (ha : a ∈ descend fs false depth tail q) :
    a ∈ descend fs false (pieces.length + depth) (pieces.map (·.map quotedToken) ++ tail) p := by
  induction pieces generalizing p with
  | nil =>
    rw [List.map_nil, spelled?] at hq
    split at hq
    · cases hq
      simpa using ha
    · cases hq
  | cons cs pieces ih =>
    rw [List.map_cons, spelled?] at hq
    split at hq
    · rename_i hgo
      rw [Bool.and_eq_true, Bool.or_eq_true] at hgo
      have hdepth : (cs :: pieces).length + depth = pieces.length + depth + 1 := by simp; omega
      rw [hdepth, List.map_cons, List.cons_append]
      refine mem_descend_piece hfs hgo.1 (hpieces cs (by simp)) (by simp [htail]) hgo.2 ?_
      exact ih (fun x hx => hpieces x (List.mem_cons_of_mem _ hx)) hq
    · cases hq

/-! ## The files -/

section Files

variable (hany : isAnyDirectories files = false)
include hany

/-- The name of an entry is compared with the pattern. -/
theorem below_mem_descend (hp : fs.Denotes p l) (hd : fs.isDirectoryAt l = true)
    (hn : fs.entryAt? (l ++ [n]) ≠ none) (hmatch : matchesName files n = true) (depth : Nat) :
    below p n ∈ descend fs false (depth + 1) [[.anyDirectories], files] p := by
  rw [descend_stars hany depth hp hd]
  refine List.mem_flatMap.mpr ⟨n, mem_children_iff.mpr hn, List.mem_append_right _ ?_⟩
  rw [if_pos hmatch]
  exact List.mem_singleton_self _

/-- And the search goes on at the entry. -/
theorem mem_descend_of_inside (hp : fs.Denotes p l) (hd : fs.isDirectoryAt l = true)
    (hn : fs.entryAt? (l ++ [n]) ≠ none) {depth : Nat}
    (ha : a ∈ descend fs false depth [[.anyDirectories], files] (below p n)) :
    a ∈ descend fs false (depth + 1) [[.anyDirectories], files] p := by
  rw [descend_stars hany depth hp hd]
  exact List.mem_flatMap.mpr ⟨n, mem_children_iff.mpr hn, List.mem_append_left _ ha⟩

/-- **`**` leads along directories**, and compares the names in the last one. -/
theorem below_spell_mem_descend (hfs : fs.IsNested) (hp : fs.Leads p k l) {way : List Name}
    (hway : ∀ m ∈ way, IsName m) (hd : fs.isDirectoryAt (l ++ way) = true) (depth : Nat) :
    fs.Leads (spell p way) k (l ++ way) ∧
      ∀ n, fs.entryAt? (l ++ way ++ [n]) ≠ none → matchesName files n = true →
        below (spell p way) n ∈ descend fs false (way.length + (depth + 1)) [[.anyDirectories], files] p := by
  induction way generalizing p l with
  | nil =>
    rw [List.append_nil] at hd ⊢
    refine ⟨hp, fun n hn hmatch => ?_⟩
    rw [List.length_nil, Nat.zero_add]
    exact below_mem_descend hany (hp.denotes hd) hd hn hmatch depth
  | cons m way ih =>
    have hm := hway m (by simp)
    rw [List.append_cons] at hd ⊢
    have hentry : fs.entryAt? (l ++ [m] ++ way) ≠ none := by
      rw [isDirectoryAt_iff.mp hd]
      simp
    have hhere := hfs.above l m (entryAt?_of_append hfs hentry)
    have hbelow : fs.isDirectoryAt (l ++ [m]) = true := by
      by_cases hnil : way = []
      · rwa [hnil, List.append_nil] at hd
      · exact isDirectoryAt_of_append hfs hnil hentry
    -- the step to the next directory
    have hstep : fs.Arrives k l [stepOfPiece m] k (l ++ [m]) := by
      rw [stepOfPiece_of_isName hm]
      exact .down hhere (isGoal_of_isDirectoryAt hbelow) (.nil k _)
    have hnext := leads_below hfs hp hm.no_separator hm.no_nul (fun _ => hm.ne_nil) hstep
    obtain ⟨hleads, hmem⟩ := ih hnext (fun x hx => hway x (List.mem_cons_of_mem _ hx)) hd
    refine ⟨hleads, fun n hn hmatch => ?_⟩
    have hdepth : (m :: way).length + (depth + 1) = way.length + (depth + 1) + 1 := by simp; omega
    have hchild : fs.entryAt? (l ++ [m]) ≠ none := by simp [isDirectoryAt_iff.mp hbelow]
    rw [hdepth]
    exact mem_descend_of_inside hany (hp.denotes hhere) hhere hchild (hmem n hn hmatch)

/-- **Whatever `**` leads to is an entry whose name the pattern matches.** -/
theorem exists_of_mem_descend {depth : Nat} (h : a ∈ descend fs false depth [[.anyDirectories], files] p) :
    ∃ p' l n, fs.Denotes p' l ∧ fs.entryAt? (l ++ [n]) ≠ none ∧ a = below p' n ∧
      matchesName files n = true := by
  induction depth generalizing p with
  | zero => cases h
  | succ depth ih =>
    cases hdir : fs.isDirectory p with
    | false =>
      rw [descend_of_not_directory hdir] at h
      cases h
    | true =>
      obtain ⟨l, hl, hd⟩ := isDirectory_iff.mp hdir
      rw [descend_stars hany depth hl hd] at h
      obtain ⟨n, hn, hfound⟩ := List.mem_flatMap.mp h
      rcases List.mem_append.mp hfound with hinside | hhere
      · exact ih hinside
      · split at hhere
        · rename_i hmatch
          exact ⟨p, l, n, hl, mem_children_iff.mp hn, List.mem_singleton.mp hhere, hmatch⟩
        · cases hhere

end Files

/-- Whatever is found was found from where a piece leads. -/
theorem exists_of_mem_descend_cons {depth : Nat} {c : Component} {rest : List Component}
    (hc : isAnyDirectories c = false) (hrest : rest ≠ [])
    (h : a ∈ descend fs false depth (c :: rest) p) :
    ∃ depth' p', a ∈ descend fs false depth' rest p' := by
  have hnot : rest.isEmpty = false := by simpa using hrest
  cases depth with
  | zero => cases h
  | succ depth =>
    refine ⟨depth, ?_⟩
    rw [descend] at h
    split at h
    · cases h
    · split at h
      · simp only [inDirectory, visit, hc, compareName, proceed, hnot, Bool.false_eq_true, if_false] at h
        rcases List.mem_append.mp h with h | h
        · obtain ⟨n, _, hn⟩ := List.mem_flatMap.mp h
          split at hn
          · exact ⟨_, hn⟩
          · cases hn
        · obtain ⟨n, _, hn⟩ := List.mem_flatMap.mp h
          exact ⟨_, hn⟩
      · simp only [proceed, hnot, Bool.false_eq_true, if_false] at h
        split at h
        · exact ⟨_, h⟩
        · cases h

theorem exists_of_mem_descend_pieces {depth : Nat} {pieces : List (List Char)} {tail : List Component}
    (htail : tail ≠ []) (h : a ∈ descend fs false depth (pieces.map (·.map quotedToken) ++ tail) p) :
    ∃ depth' p', a ∈ descend fs false depth' tail p' := by
  induction pieces generalizing depth p with
  | nil => exact ⟨depth, p, h⟩
  | cons cs pieces ih =>
    obtain ⟨_, _, h'⟩ := exists_of_mem_descend_cons (isAnyDirectories_quoted cs) (by simp [htail]) h
    exact ih h'

/-! ## Files below a directory -/

/-- A search that ends well has read its pattern. -/
theorem filesBelow_eq_ok {directory : Path} (hext : '/' ∉ extension.toList)
    (hfound : filesBelow fs directory extension = .ok found) :
    ∃ files, tokenize ('*' :: '.' :: extension.toList) = .ok files ∧
      found = Path.sort ((descend fs false (maxSteps fs (filesComponents directory.display.toList files))
        (filesComponents directory.display.toList files) (startOf directory)).filter fs.isFile) := by
  rw [filesBelow_eq hext] at hfound
  obtain ⟨_, _, hfound⟩ := bind_eq_ok.mp hfound
  obtain ⟨files, hfiles, rfl⟩ := map_eq_ok_iff.mp hfound
  exact ⟨files, hfiles, rfl⟩

/-- The way from the top to the current directory leads there. -/
theorem exists_current (hfs : fs.IsNested) (hnames : ∀ n ∈ fs.workingDirectory, IsName n)
    (hany : isAnyDirectories files = false) {depth : Nat} (hdepth : fs.entries.length ≤ depth) :
    ∃ q, fs.Leads q maxLinks fs.workingDirectory ∧
      ∀ n, fs.entryAt? (fs.workingDirectory ++ [n]) ≠ none → matchesName files n = true →
        below q n ∈ descend fs false (depth + 1) [[.anyDirectories], files] Path.root := by
  have htop : fs.Leads Path.root maxLinks [] :=
    leads_of_silent hfs (by decide) (by decide) (by decide)
  have hlength : fs.workingDirectory.length ≤ fs.entries.length :=
    length_le hfs (by simp [isDirectoryAt_iff.mp hfs.start])
  obtain ⟨more, rfl⟩ := Nat.exists_eq_add_of_le (hlength.trans hdepth)
  exact ⟨_, below_spell_mem_descend hany hfs htop hnames hfs.start more⟩

/--
**A file in the directory is found if the pattern matches its name**, by a path that leads to the same
directory.  Without a path to a directory the search goes through everything.
-/
theorem below_mem_filesBelow (hfs : fs.IsNested) (hnames : ∀ n ∈ fs.workingDirectory, IsName n)
    (hext : '/' ∉ extension.toList) (hp : fs.Opens (Path.ofString text) k l)
    (hd : fs.isDirectoryAt l = true) (hsight : text = "" ∨ ¬ IsBlind (Path.ofString text))
    (hfound : filesBelow fs (Path.ofString text) extension = .ok found)
    (hfiles : tokenize ('*' :: '.' :: extension.toList) = .ok files) :
    ∃ q, fs.Leads q k l ∧ ∀ n, fs.entryAt? (l ++ [n]) ≠ none → matchesName files n = true →
      fs.isFile (below q n) = true → below q n ∈ found := by
  obtain ⟨files', hfiles', rfl⟩ := filesBelow_eq_ok hext hfound
  rw [hfiles] at hfiles'
  cases hfiles'
  have hany := isAnyDirectories_of_tokenize hext hfiles
  obtain ⟨depth, hdepth, hsteps⟩ :=
    exists_maxSteps_eq fs (Path.ofString text).display.toList files
  obtain ⟨q, hleads, hq⟩ : ∃ q, fs.Leads q k l ∧
      ∀ n, fs.entryAt? (l ++ [n]) ≠ none → matchesName files n = true →
        below q n ∈ descend fs false
          (maxSteps fs (filesComponents (Path.ofString text).display.toList files))
          (filesComponents (Path.ofString text).display.toList files) (startOf (Path.ofString text)) := by
    rw [hsteps]
    by_cases htext : text = ""
    · subst htext
      obtain ⟨rfl, rfl⟩ : k = maxLinks ∧ l = fs.workingDirectory := hp
      rw [show (directoryPieces (Path.ofString "").display.toList).length = 0 from rfl, Nat.zero_add]
      exact exists_current hfs hnames hany hdepth
    · have hempty : ¬ (Path.ofString text).isEmpty = true := by
        simpa [Path.isEmpty, Path.ofString] using mt encode_eq_nil_iff.mp htext
      rw [Opens, if_neg hempty] at hp
      obtain ⟨q, hq, hleads, _⟩ := reached?_of_leads hfs hp hd (hsight.resolve_left htext)
      refine ⟨q, hleads, fun n hentry hmatch => ?_⟩
      refine mem_descend_pieces hfs (fun cs => no_slash_of_mem_directoryPieces) (by simp) hq ?_
      exact below_mem_descend hany (hleads.denotes hd) hd hentry hmatch depth
  refine ⟨q, hleads, fun n hentry hmatch hfile => ?_⟩
  rw [(perm_sort _).mem_iff, List.mem_filter]
  exact ⟨hq n hentry hmatch, hfile⟩

/-- **Whatever is found is a file whose name the pattern matches.** -/
theorem exists_of_mem_filesBelow {directory : Path} (hnames : fs.HasStepNames)
    (hext : '/' ∉ extension.toList) (hfound : filesBelow fs directory extension = .ok found)
    (hfiles : tokenize ('*' :: '.' :: extension.toList) = .ok files) (ha : a ∈ found) :
    ∃ n, a.fileName? = some n ∧ matchesName files n = true := by
  obtain ⟨files', hfiles', rfl⟩ := filesBelow_eq_ok hext hfound
  rw [hfiles] at hfiles'
  cases hfiles'
  rw [(perm_sort _).mem_iff, List.mem_filter] at ha
  obtain ⟨_, _, hmem⟩ := exists_of_mem_descend_pieces (by simp) ha.1
  obtain ⟨p, l, n, hl, hn, rfl, hmatch⟩ :=
    exists_of_mem_descend (isAnyDirectories_of_tokenize hext hfiles) hmem
  have hstep := hnames.entry _ hn n (by simp)
  obtain ⟨ps, hps⟩ := pieces_below hl.ne_nil
  have hpieces := hps n hstep.no_separator
  obtain ⟨_, hdenotes⟩ := exists_denotes_of_isFile ha.2
  have h0 : (0 : UInt8) ∉ n := by
    intro h0
    exact hdenotes.no_nul ((mem_bytes_iff (by decide)).mpr ⟨n, by simp [hpieces], h0⟩)
  exact ⟨n, fileName?_of_pieces hpieces (hstep.isName h0), hmatch⟩

end ContractBindings.Glob
