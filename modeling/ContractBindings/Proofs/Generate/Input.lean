import ContractBindings.Proofs.FileSystem.Links
import ContractBindings.Proofs.Generate.Again

/-!
# What a run does to its artifacts

A run writes beside what it reads.  Nothing keeps a binding from having the name of an artifact, or a link
in its place from leading to one.

* `changes_bind`: binding one artifact changes at most the place that the path of its binding leads to;
* `changes_bindAll`: a run changes such places only, and each of them holds a binding afterwards;
* `generate_artifacts`: so an artifact is kept, unless a binding of the run was written over it; and all
  are kept in a tree without links, if the extensions are apart;
* `not_keepsArtifacts_of_denotes`: otherwise an artifact may be lost to its own binding, or through a link.
-/

set_option autoImplicit false

namespace ContractBindings.Generate

open Text ContractBindings.Path FileSystem Glob

variable {fs fs' fs'' : FileSystem} {c : Config} {s : Session} {a : Path} {l : Location}
  {written written' found : List Path}

/-! ## What changes -/

/-- Only files change, and only where one of these paths leads; all of these paths lead to bindings. -/
structure Changes (c : Config) (fs fs' : FileSystem) (written : List Path) : Prop where
  onlyFiles : fs.OnlyFiles fs'
  entry : ∀ l, fs'.entryAt? l = fs.entryAt? l ∨ ∃ q ∈ written, fs'.Denotes q l
  binding : ∀ q ∈ written, ∃ l b, fs'.Denotes q l ∧ IsBinding c b ∧ fs'.entryAt? l = some (.file b)

namespace Changes

theorem refl (c : Config) (fs : FileSystem) : Changes c fs fs [] :=
  ⟨OnlyFiles.refl fs, fun _ => Or.inl rfl, fun _ h => by cases h⟩

/-- A place that changed once more has been written to by a path that is known already, or by a new
one. -/
theorem trans (h : Changes c fs fs' written) (h' : Changes c fs' fs'' written') :
    Changes c fs fs'' (written ++ written') := by
  refine ⟨h.onlyFiles.trans h'.onlyFiles, fun l => ?_, fun q hq => ?_⟩
  · rcases h'.entry l with hsame | ⟨q, hq, hl⟩
    · rcases h.entry l with hold | ⟨q, hq, hl⟩
      · exact Or.inl (hsame.trans hold)
      · exact Or.inr ⟨q, List.mem_append_left _ hq, h'.onlyFiles.denotes hl⟩
    · exact Or.inr ⟨q, List.mem_append_right _ hq, hl⟩
  · rcases List.mem_append.mp hq with hq | hq
    · obtain ⟨l, b, hl, hb, hfile⟩ := h.binding q hq
      have hl' := h'.onlyFiles.denotes hl
      rcases h'.entry l with hsame | ⟨r, hr, hrl⟩
      · exact ⟨l, b, hl', hb, hsame.trans hfile⟩
      · -- the binding was written over by a later one
        obtain ⟨m, b', hm, hb', hfile'⟩ := h'.binding r hr
        have hml := hm.unique hrl
        subst hml
        exact ⟨m, b', hl', hb', hfile'⟩
    · exact h'.binding q hq

end Changes

/-- **Binding one artifact** changes at most the place of its binding. -/
theorem changes_bind (hfs : s.files.IsNested) (a : Path) :
    (bind c s a).1.files.IsNested ∧
      Changes c s.files (bind c s a).1.files ((bind c s a).2.toOption.toList) := by
  rcases bind_cases c s a with ⟨e, hfiles, hresult⟩ | ⟨doc, _, hput, hresult⟩
  · rw [hfiles, hresult]
    exact ⟨hfs, Changes.refl c s.files⟩
  · obtain ⟨l, hne, hset, hfiles, hnested, hdenotes⟩ := putFile_spec hfs hput
    rw [hresult]
    refine ⟨hnested, hfiles, fun k => ?_, fun q hq => ?_⟩
    · by_cases hk : k = l
      · subst hk
        exact Or.inr ⟨_, List.mem_singleton.mpr rfl, hdenotes⟩
      · exact Or.inl (by rw [hset, entryAt?_set hne, if_neg hk])
    · rw [List.mem_singleton.mp hq]
      exact ⟨l, _, hdenotes, ⟨_, doc, rfl⟩, by rw [hset, entryAt?_set hne, if_pos rfl]⟩

/-- **Binding several artifacts** changes the places of the bindings that are reported, and no others. -/
theorem changes_bindAll (hfs : s.files.IsNested) (as : List Path) :
    Changes c s.files (bindAll c s as).1.files (bindAll c s as).2.1 := by
  induction as generalizing s with
  | nil => exact Changes.refl c s.files
  | cons a as ih =>
    obtain ⟨hnested, hstep⟩ := changes_bind (c := c) hfs a
    cases hresult : (bind c s a).2 with
    | ok path =>
      rw [hresult] at hstep
      rw [bindAll_cons_of_ok hresult]
      exact hstep.trans (ih hnested)
    | error e =>
      rw [hresult] at hstep
      rw [bindAll_cons_of_error hresult]
      exact hstep.trans (ih (s := (bind c s a).1.tell (.skipped a e.message)) hnested)

/-! ## Runs -/

/-- A run that does not find the directory of the artifacts leaves the files alone. -/
theorem generate_of_missing (h : s.files.isDirectory c.artifacts = false) :
    (generate c .precompiled s).1.files = s.files := by
  rw [generate, Compiler.compile]
  simp [Session.tell, h]

/-- What is found are paths of files. -/
theorem exists_denotes_of_mem {extension : String} {directory : Path}
    (h : findArtifacts fs directory extension = .ok found) (ha : a ∈ found) :
    ∃ l, fs.Denotes a l := by
  obtain ⟨pattern, _, hsorted⟩ := bind_eq_ok.mp h
  cases hsorted
  exact exists_denotes_of_isFile (List.mem_filter.mp ((perm_sort _).subset ha)).2

/-- The artifact is there after the run as it was before. -/
def IsKept (before after : FileSystem) (a : Path) : Prop :=
  ∃ l, before.Denotes a l ∧ after.Denotes a l ∧ after.entryAt? l = before.entryAt? l

/-- One of the paths that were written leads to the artifact, and a binding stands there now. -/
def IsReplaced (c : Config) (before after : FileSystem) (written : List Path) (a : Path) : Prop :=
  ∃ l, before.Denotes a l ∧ after.Denotes a l ∧ (∃ q ∈ written, after.Denotes q l) ∧
    ∃ b, IsBinding c b ∧ after.entryAt? l = some (.file b)

theorem IsKept.contentsAt_eq (h : IsKept fs fs' a) : fs'.contentsAt a = fs.contentsAt a := by
  obtain ⟨l, hl, hl', he⟩ := h
  have hlookup : fs'.lookup true a = fs.lookup true a := by
    unfold Denotes at hl hl'
    simp only [lookup, hl, hl', he]
  unfold contentsAt
  rw [hlookup]

theorem Changes.isKept_or_isReplaced (h : Changes c fs fs' written) (hl : fs.Denotes a l) :
    IsKept fs fs' a ∨ IsReplaced c fs fs' written a := by
  have hl' := h.onlyFiles.denotes hl
  rcases h.entry l with hsame | ⟨q, hq, hql⟩
  · exact Or.inl ⟨l, hl, hl', hsame⟩
  · obtain ⟨m, b, hm, hb, hfile⟩ := h.binding q hq
    have hml := hm.unique hql
    subst hml
    exact Or.inr ⟨m, hl, hl', ⟨q, hq, hm⟩, b, hb, hfile⟩

/-- What is found is the listing of a directory, if there is anything to be found. -/
theorem eq_nil_or_isListing {extension : String} {directory : Path} (hfs : fs.IsPlainTree)
    (hplain : IsPlainExtension extension) (h : findArtifacts fs directory extension = .ok found) :
    found = [] ∨ ∃ p l, IsListing fs extension p l found := by
  unfold findArtifacts at h
  rcases filesBelow_cases hfs hplain directory with ⟨_, hfound⟩ | ⟨p, l, listing, _, hfound, hlisting⟩
  · rw [hfound] at h
    cases h
    exact Or.inl rfl
  · rw [hfound] at h
    cases h
    exact Or.inr ⟨p, l, hlisting⟩

/-- The jobs of a listing keep its artifacts, if the extensions are apart. -/
theorem isKept_run {extension : String} {p : Path} (hfs : fs.IsPlainTree)
    (h : IsListing fs extension p l found) (hapart : AreApart extension c.bindingExtension)
    (ha : a ∈ found) : IsKept fs (run fs (found.map (jobOf c fs))) a := by
  obtain ⟨d, n, hart, _⟩ := exists_isArtifact hfs h ha
  obtain ⟨hplain, hgrows, _⟩ := (areArtifacts_of_isListing hfs h).run (c := c)
  exact ⟨d ++ [n], hart.denotes, hart.denotes.mono hfs hplain hgrows,
    entryAt?_run_artifact hfs h hapart ha hart⟩

/-- In a tree without links every artifact is kept, if the extensions are apart. -/
theorem isKept_of_areApart (hfs : s.files.IsPlainTree)
    (hfound : findArtifacts s.files c.artifacts c.artifactExtension = .ok found)
    (hplain : IsPlainExtension c.artifactExtension) (hext : '/' ∉ c.bindingExtension.toList)
    (hapart : AreApart c.artifactExtension c.bindingExtension) (ha : a ∈ found) :
    IsKept s.files (generate c .precompiled s).1.files a := by
  cases hdir : s.files.isDirectory c.artifacts with
  | false =>
    obtain ⟨l, hl⟩ := exists_denotes_of_mem hfound ha
    rw [generate_of_missing hdir]
    exact ⟨l, hl, hl, rfl⟩
  | true =>
    rcases eq_nil_or_isListing hfs hplain hfound with rfl | ⟨p, l, hlisting⟩
    · cases ha
    · obtain ⟨s', hs', hfiles, _⟩ := generate_of_found hdir hfound
      have hart := areArtifacts_of_isListing hfs hlisting
      rw [← hs'] at hart
      rw [hfiles, bindAll_files hart hext, hs']
      exact isKept_run hfs hlisting hapart ha

/--
**What a run does to its artifacts**, in any tree and with any configuration.  An artifact is kept, unless
the path of a binding that the run reports leads to it; then it is a binding now.  In a tree without links
every artifact is kept, if the extensions are apart.
-/
theorem generate_artifacts (hfs : s.files.IsTree)
    (hfound : findArtifacts s.files c.artifacts c.artifactExtension = .ok found) :
    (∀ a ∈ found, IsKept s.files (generate c .precompiled s).1.files a ∨
      ∃ report, (generate c .precompiled s).2 = .ok report ∧
        IsReplaced c s.files (generate c .precompiled s).1.files report.generated a) ∧
    (s.files.IsPlainTree → IsPlainExtension c.artifactExtension → '/' ∉ c.bindingExtension.toList →
      AreApart c.artifactExtension c.bindingExtension →
        ∀ a ∈ found, IsKept s.files (generate c .precompiled s).1.files a) := by
  constructor
  · intro a ha
    obtain ⟨l, hl⟩ := exists_denotes_of_mem hfound ha
    cases hdir : s.files.isDirectory c.artifacts with
    | false =>
      left
      rw [generate_of_missing hdir]
      exact ⟨l, hl, hl, rfl⟩
    | true =>
      obtain ⟨s', hs', hfiles, hreport⟩ := generate_of_found hdir hfound
      have hchanges := changes_bindAll (c := c) (s := s') (hs' ▸ hfs.isNested) found
      rw [← hfiles, hs'] at hchanges
      rcases hchanges.isKept_or_isReplaced hl with hkept | hreplaced
      · exact Or.inl hkept
      · exact Or.inr ⟨_, hreport, hreplaced⟩
  · intro hplain hextension hext hapart a ha
    exact isKept_of_areApart hplain hfound hextension hext hapart ha

theorem findArtifacts_sample :
    findArtifacts sampleSession.files Path.current "json" =
      .ok [Path.ofString "T.json", Path.ofString "U.json"] := by cbv

/-- The run over the sample, whose extensions are apart. -/
theorem generate_artifacts_sample :
    (∀ a ∈ [Path.ofString "T.json", Path.ofString "U.json"],
      IsKept sampleSession.files (generate sampleConfig .precompiled sampleSession).1.files a ∨
      ∃ report, (generate sampleConfig .precompiled sampleSession).2 = .ok report ∧
        IsReplaced sampleConfig sampleSession.files
          (generate sampleConfig .precompiled sampleSession).1.files report.generated a) ∧
    ∀ a ∈ [Path.ofString "T.json", Path.ofString "U.json"],
      IsKept sampleSession.files (generate sampleConfig .precompiled sampleSession).1.files a :=
  have hrun := generate_artifacts (c := sampleConfig) isPlainTree_sample.toIsTree findArtifacts_sample
  ⟨hrun.1, hrun.2 isPlainTree_sample (by decide) (by decide) areApart_sample⟩

/-! ## Artifacts that are lost -/

/-- What can be read as an artifact is no binding. -/
theorem not_isBinding_of_loadArtifact {b : Bytes} {doc : Abi.Document}
    (hload : loadArtifact fs a = .ok doc) (hb : fs.contentsAt a = .ok b) : ¬ IsBinding c b := by
  rintro ⟨contract, doc', rfl⟩
  have hnone := ofText_source c.dialect contract doc' (Signature.ofDocument doc')
  unfold loadArtifact textAt at hload
  rw [hb] at hload
  simp only [decode?_encode] at hload
  cases hread : Abi.Document.ofText (bindingOf c contract doc').source with
  | error e => rw [hread] at hload; cases hload
  | ok d =>
    rw [bindingOf] at hread
    rw [hread] at hnone
    cases hnone

/-- The place of the binding is reported, where an artifact can be read and a file written. -/
theorem mem_generated_head {as : List Path} {doc : Abi.Document} (hload : loadArtifact s.files a = .ok doc)
    (hpath : s.files.Denotes (bindingPath c a) l) (hd : s.files.isDirectoryAt l = false) :
    bindingPath c a ∈ (bindAll c s (a :: as)).2.1 := by
  have hput : s.files.putFile (bindingPath c a)
      (encode (bindingOf c (contractName a) doc).source) =
        .ok (s.files.set l (.file (encode (bindingOf c (contractName a) doc).source))) := by
    unfold Denotes at hpath
    simp only [putFile, hpath, hd, Bool.false_eq_true, if_false]
  obtain ⟨_, _, hfirst⟩ := generated_cons as hload hput
  rw [hfirst]
  exact List.mem_cons_self

/-- **An artifact is lost** if the path of a binding leads to it: its own binding, or that of another
artifact `a'`. -/
theorem contentsAt_ne_of_denotes {as : List Path} {a' : Path} {doc doc' : Abi.Document}
    (hfs : s.files.IsNested) (hl : s.files.Denotes a l) (hload : loadArtifact s.files a = .ok doc)
    (hload' : loadArtifact s.files a' = .ok doc') (hpath : s.files.Denotes (bindingPath c a') l) :
    (bindAll c s (a' :: as)).1.files.contentsAt a ≠ s.files.contentsAt a := by
  have hd : s.files.isDirectoryAt l = false := by
    rw [Bool.eq_false_iff]
    intro hd
    have hdirectory := lookup_of_denotes hl (isDirectoryAt_iff.mp hd)
    simp [loadArtifact, textAt, contentsAt, hdirectory] at hload
  have hchanges := changes_bindAll (c := c) hfs (a' :: as)
  obtain ⟨m, b, hm, hb, hfile⟩ := hchanges.binding _ (mem_generated_head hload' hpath hd)
  have hml := hm.unique (hchanges.onlyFiles.denotes hpath)
  subst hml
  have hcontents : (bindAll c s (a' :: as)).1.files.contentsAt a = .ok b := by
    unfold contentsAt
    rw [lookup_of_denotes (hchanges.onlyFiles.denotes hl) hfile]
  intro hsame
  exact not_isBinding_of_loadArtifact hload (hsame.symm.trans hcontents) hb

/-- All artifacts that are found have the same bytes after a run. -/
def KeepsArtifacts (c : Config) (s : Session) : Prop :=
  ∀ found, findArtifacts s.files c.artifacts c.artifactExtension = .ok found →
    ∀ a ∈ found, (generate c .precompiled s).1.files.contentsAt a = s.files.contentsAt a

/-- **Extensions that are apart save the artifacts** of a tree without links. -/
theorem keepsArtifacts_of_areApart (hfs : s.files.IsPlainTree)
    (hplain : IsPlainExtension c.artifactExtension) (hext : '/' ∉ c.bindingExtension.toList)
    (hapart : AreApart c.artifactExtension c.bindingExtension) : KeepsArtifacts c s := by
  intro found hfound a ha
  exact (isKept_of_areApart hfs hfound hplain hext hapart ha).contentsAt_eq

/-- The run loses an artifact that the path of the first binding leads to. -/
theorem not_keepsArtifacts_of_denotes {as : List Path} {a' : Path} {doc doc' : Abi.Document}
    (hfs : s.files.IsTree) (hdir : s.files.isDirectory c.artifacts = true)
    (hfound : findArtifacts s.files c.artifacts c.artifactExtension = .ok (a' :: as))
    (ha : a ∈ a' :: as) (hl : s.files.Denotes a l) (hload : loadArtifact s.files a = .ok doc)
    (hload' : loadArtifact s.files a' = .ok doc') (hpath : s.files.Denotes (bindingPath c a') l) :
    ¬ KeepsArtifacts c s := by
  intro hkeeps
  obtain ⟨s', hs', hfiles, _⟩ := generate_of_found hdir hfound
  have hsame := hkeeps _ hfound a ha
  rw [hfiles] at hsame
  rw [← hs'] at hfs hl hload hload' hpath hsame
  exact contentsAt_ne_of_denotes hfs.isNested hl hload hload' hpath hsame

/-- Two artifacts, and a link to the second one in the place of the binding of the first one. -/
def linkedBindingSession : Session where
  files :=
    ⟨[([encode "w"], .directory),
      ([encode "w", encode "T.json"], .file (encode "\x7b\"abi\": []\x7d")),
      ([encode "w", encode "T.ts"], .link (Path.ofString "U.json")),
      ([encode "w", encode "U.json"], .file (encode "\x7b\"abi\": []\x7d"))], [encode "w"]⟩
  searchPath := []

/-- **Two runs that lose an artifact**: a binding with the extension of artifacts is written over its own
one, and another binding is written through a link. -/
theorem not_keepsArtifacts_sample :
    ¬ KeepsArtifacts overlappingConfig sampleSession ∧
      linkedBindingSession.files.IsTree ∧ ¬ KeepsArtifacts sampleConfig linkedBindingSession := by
  have hlinked : linkedBindingSession.files.IsTree := by decide +kernel
  refine ⟨?_, hlinked, ?_⟩
  · have hload : loadArtifact sampleSession.files (Path.ofString "T.json") = .ok ⟨[]⟩ := by cbv
    have hdenotes : sampleSession.files.Denotes (Path.ofString "T.json")
        [encode "w", encode "T.json"] := by cbv
    have hpath : bindingPath overlappingConfig (Path.ofString "T.json") = Path.ofString "T.json" := by
      cbv
    exact not_keepsArtifacts_of_denotes isPlainTree_sample.toIsTree isDirectory_sample
      findArtifacts_sample List.mem_cons_self hdenotes hload hload (hpath ▸ hdenotes)
  · have hfound : findArtifacts linkedBindingSession.files sampleConfig.artifacts
        sampleConfig.artifactExtension =
          .ok [Path.ofString "T.json", Path.ofString "U.json"] := by cbv
    have hload : loadArtifact linkedBindingSession.files (Path.ofString "U.json") = .ok ⟨[]⟩ := by cbv
    have hload' : loadArtifact linkedBindingSession.files (Path.ofString "T.json") = .ok ⟨[]⟩ := by cbv
    have hdenotes : linkedBindingSession.files.Denotes (Path.ofString "U.json")
        [encode "w", encode "U.json"] := by cbv
    have hpath : linkedBindingSession.files.Denotes (bindingPath sampleConfig (Path.ofString "T.json"))
        [encode "w", encode "U.json"] := by cbv
    exact not_keepsArtifacts_of_denotes hlinked (by cbv) hfound
      (List.mem_cons_of_mem _ List.mem_cons_self) hdenotes hload hload' hpath

end ContractBindings.Generate
