import ContractBindings.Proofs.FileSystem.Effects
import ContractBindings.Proofs.Generate.Input

/-!
# Bindings that share a file

A binding takes its name from the stem of its artifact.  Nothing keeps two artifacts of one directory from
having one stem, or a link in the place of a binding from leading to another one; the later binding is
written over the earlier one then.

* `bindAll_written`: every artifact is bound or skipped when its turn comes, from the document that it held
  before the run, and the bindings are written one after another;
* `isIntact_iff`: a run loses no binding exactly if no path is reported twice and bindings that share a
  file are the same;
* `isIntact_listing_iff`: in a tree without links two artifacts of a listing share a binding exactly if one
  has no name but the dotted extension, and the other one has it twice;
* `generate_bound`: what a run reports, what it has written, and when no binding is lost.
-/

set_option autoImplicit false

namespace ContractBindings.Generate

open Text ContractBindings.Path FileSystem Glob

variable {fs fs' : FileSystem} {c : Config} {s : Session} {a a' : Path} {l : Location}
  {as found written : List Path} {doc : Abi.Document}

/-! ## Turns -/

/-- What came of an artifact when its turn came: the document that was bound, or why it was skipped. -/
structure Turn where
  path : Path
  result : Except ArtifactError Abi.Document

/-- An artifact that was bound, and the document it held. -/
structure Bound where
  path : Path
  doc : Abi.Document

namespace Bound

def target (c : Config) (x : Bound) : Path := bindingPath c x.path

def bytes (c : Config) (x : Bound) : Bytes := encode (bindingOf c (contractName x.path) x.doc).source

end Bound

def boundOf (turns : List Turn) : List Bound :=
  turns.filterMap fun t => t.result.toOption.map (Bound.mk t.path)

def skippedOf (turns : List Turn) : List Skipped :=
  turns.filterMap fun t =>
    match t.result with
    | .ok _ => none
    | .error e => some ⟨t.path, e⟩

theorem mem_of_mem_boundOf {turns : List Turn} {x : Bound} (h : x ∈ boundOf turns) :
    x.path ∈ turns.map Turn.path := by
  obtain ⟨t, ht, hx⟩ := List.mem_filterMap.mp h
  obtain ⟨doc, _, rfl⟩ := Option.map_eq_some_iff.mp hx
  exact List.mem_map_of_mem ht

theorem sublist_boundOf (turns : List Turn) :
    ((boundOf turns).map Bound.path).Sublist (turns.map Turn.path) := by
  induction turns with
  | nil => exact List.Sublist.slnil
  | cons t turns ih =>
    unfold boundOf at ih ⊢
    rw [List.filterMap_cons, List.map_cons]
    cases t.result with
    | ok doc => exact ih.cons_cons _
    | error e => exact ih.cons _

/-! ## One after another -/

/-- **What can be read during a run was there before it**: a binding cannot be read as an artifact. -/
theorem loadArtifact_of_changes (h : Changes c fs fs' written) (hl : fs.Denotes a l)
    (hload : loadArtifact fs' a = .ok doc) : loadArtifact fs a = .ok doc := by
  rcases h.isKept_or_isReplaced hl with hkept | ⟨m, _, hm, _, b, hb, hfile⟩
  · unfold loadArtifact textAt at hload ⊢
    rw [← hkept.contentsAt_eq]
    exact hload
  · have hcontents : fs'.contentsAt a = .ok b := by
      unfold contentsAt
      rw [lookup_of_denotes hm hfile]
    exact absurd hb (not_isBinding_of_loadArtifact hload hcontents)

/--
**Every artifact is bound or skipped in its turn**, from the document that it held before the first turn,
and the bindings are written one after another.
-/
theorem bindAll_written (hfs : s.files.IsNested) (hpaths : ∀ a ∈ as, ∃ l, s.files.Denotes a l) :
    ∃ turns, turns.map Turn.path = as ∧
      (bindAll c s as).2 = ((boundOf turns).map (Bound.target c), skippedOf turns) ∧
      (∀ x ∈ boundOf turns, loadArtifact s.files x.path = .ok x.doc) ∧
      Written (Bound.target c) (Bound.bytes c) s.files (bindAll c s as).1.files (boundOf turns) := by
  induction as generalizing s with
  | nil => exact ⟨[], rfl, rfl, fun _ hx => absurd hx List.not_mem_nil, Written.nil hfs⟩
  | cons a as ih =>
    obtain ⟨hnested, hchanges⟩ := changes_bind (c := c) hfs a
    have hnext : ∀ b ∈ as, ∃ l, (bind c s a).1.files.Denotes b l := by
      intro b hb
      obtain ⟨l, hl⟩ := hpaths b (List.mem_cons_of_mem _ hb)
      exact ⟨l, hchanges.onlyFiles.denotes hl⟩
    -- the documents of later turns were there before this one
    have hearlier : ∀ turns : List Turn, turns.map Turn.path = as →
        (∀ x ∈ boundOf turns, loadArtifact (bind c s a).1.files x.path = .ok x.doc) →
        ∀ x ∈ boundOf turns, loadArtifact s.files x.path = .ok x.doc := by
      intro turns hturns hloaded x hx
      obtain ⟨l, hl⟩ := hpaths x.path
        (List.mem_cons_of_mem _ (hturns ▸ mem_of_mem_boundOf hx))
      exact loadArtifact_of_changes hchanges hl (hloaded x hx)
    rcases bind_cases c s a with ⟨e, hfiles, hresult⟩ | ⟨doc, hload, hput, hresult⟩
    · obtain ⟨turns, hturns, hreport, hloaded, hwritten⟩ :=
        ih (s := (bind c s a).1.tell (.skipped a e.message)) hnested hnext
      rw [bindAll_cons_of_error hresult]
      refine ⟨⟨a, .error e⟩ :: turns, by rw [List.map_cons, hturns], ?_,
        hearlier turns hturns hloaded, ?_⟩
      · simp only [hreport]
        rfl
      · rw [← hfiles]
        exact hwritten
    · obtain ⟨turns, hturns, hreport, hloaded, hwritten⟩ := ih hnested hnext
      rw [bindAll_cons_of_ok hresult]
      refine ⟨⟨a, .ok doc⟩ :: turns, by rw [List.map_cons, hturns], ?_, ?_, ?_⟩
      · simp only [hreport]
        rfl
      · intro x hx
        rcases List.mem_cons.mp hx with rfl | hx
        · exact hload
        · exact hearlier turns hturns hloaded x hx
      · exact Written.cons (x := ⟨a, doc⟩) hfs hput hwritten

/-! ## Bindings that are lost -/

variable {bound : List Bound} {x y : Bound}

/-- No binding is lost: no path is reported twice, and every one leads to the binding of its artifact. -/
structure IsIntact (c : Config) (after : FileSystem) (bound : List Bound) : Prop where
  nodup : (bound.map (Bound.target c)).Nodup
  own : ∀ x ∈ bound, after.contentsAt (x.target c) = .ok (x.bytes c)

/-- What a path leads to is the last binding that was written there. -/
theorem contentsAt_target (h : Written (Bound.target c) (Bound.bytes c) fs fs' bound) (hx : x ∈ bound) :
    ∃ l y, y ∈ bound ∧ fs'.Denotes (x.target c) l ∧ fs'.Denotes (y.target c) l ∧
      fs'.contentsAt (x.target c) = .ok (y.bytes c) := by
  obtain ⟨l, y, hl, hlast, hfile⟩ := h.exists_last hx
  obtain ⟨hy, hyl⟩ := lastTo?_eq_some hlast
  refine ⟨l, y, hy, hl, hyl, ?_⟩
  unfold contentsAt
  rw [lookup_of_denotes hl hfile]

/-- Paths that lead to one file lead to the same bytes. -/
theorem contentsAt_congr {p q : Path} (hp : fs.Denotes p l) (hq : fs.Denotes q l) :
    fs.contentsAt p = fs.contentsAt q := by
  unfold Denotes at hp hq
  simp only [contentsAt, lookup, hp, hq]

/-- **No binding is lost exactly if** no path is reported twice, and those that share a file are the same. -/
theorem isIntact_iff (h : Written (Bound.target c) (Bound.bytes c) fs fs' bound) :
    IsIntact c fs' bound ↔ (bound.map (Bound.target c)).Nodup ∧
      ∀ x ∈ bound, ∀ y ∈ bound, ∀ l, fs'.Denotes (x.target c) l → fs'.Denotes (y.target c) l →
        x.bytes c = y.bytes c := by
  constructor
  · rintro ⟨hnodup, hown⟩
    refine ⟨hnodup, fun x hx y hy l hxl hyl => ?_⟩
    have hsame := contentsAt_congr hxl hyl
    rw [hown x hx, hown y hy] at hsame
    exact Except.ok.inj hsame
  · rintro ⟨hnodup, hsame⟩
    refine ⟨hnodup, fun x hx => ?_⟩
    obtain ⟨l, y, hy, hxl, hyl, hcontents⟩ := contentsAt_target h hx
    rw [hcontents, hsame x hx y hy l hxl hyl]

/-! ## Trees without links -/

variable {extension : String} {d d' : Location} {n n' : Name}

/-- The path of a binding leads beside the artifact, if it leads to a file. -/
theorem eq_of_denotes_bindingPath (hfs : fs.IsPlainTree) (ha : IsArtifact fs a d n)
    (hext : '/' ∉ c.bindingExtension.toList) {b : Bytes} (hl : fs.Denotes (bindingPath c a) l)
    (hfile : fs.entryAt? l = some (.file b)) : l = d ++ [targetName c n] := by
  have hname : IsName (targetName c n) := by
    by_contra hnot
    have hput := putFile_bindingPath hfs ha hext b
    rw [if_neg fun h => hnot h.1] at hput
    obtain ⟨e, he⟩ := hput
    unfold Denotes at hl
    simp [putFile, hl, isDirectoryAt, hfile] at he
  have hloc := locate_bindingPath hfs ha hext hname.no_nul
  rw [stepOfPiece_of_isName hname] at hloc
  unfold Denotes at hl
  rw [hl] at hloc
  exact (eq_of_route_down hfs hloc.symm).1

/-- The name that is the dotted extension and nothing else. -/
def bareName (extension : String) : Name := encode ("." ++ extension)

/-- The name that is the dotted extension twice. -/
def doubleName (extension : String) : Name := encode ("." ++ extension ++ "." ++ extension)

theorem bareName_eq (extension : String) : bareName extension = dot :: encode extension := by
  rw [bareName, encode_append]
  rfl

theorem doubleName_eq (extension : String) :
    doubleName extension = (dot :: encode extension) ++ dot :: encode extension := by
  rw [doubleName, encode_append, encode_append, ← bareName_eq, List.append_assoc]
  rfl

theorem bareName_ne_doubleName (extension : String) : bareName extension ≠ doubleName extension := by
  intro h
  have hlength := congrArg List.length h
  rw [doubleName_eq, bareName_eq, List.length_append, List.length_cons] at hlength
  omega

theorem dot_mem_encode_iff : dot ∈ encode extension ↔ '.' ∈ extension.toList :=
  mem_encode_iff (by decide)

/-- The two names have one stem, if the extension has no dot. -/
theorem targetName_bareName (c : Config) (h : '.' ∉ extension.toList) :
    targetName c (bareName extension) = targetName c (doubleName extension) := by
  have hdot : dot ∉ encode extension := fun hmem => h (dot_mem_encode_iff.mp hmem)
  have hbare : stem (bareName extension) = dot :: encode extension := by
    rw [bareName_eq]
    exact stem_append (u := []) hdot
  have hdouble : stem (doubleName extension) = dot :: encode extension := by
    rw [doubleName_eq, stem_append hdot, if_neg (by simp)]
  rw [targetName, targetName, hbare, hdouble]

/-- **No other two names with the extension have one stem.** -/
theorem eq_of_targetName_eq (hn : HasExtension extension n) (hn' : HasExtension extension n')
    (hne : n ≠ n') (h : targetName c n = targetName c n') :
    '.' ∉ extension.toList ∧ (n = bareName extension ∧ n' = doubleName extension ∨
      n' = bareName extension ∧ n = doubleName extension) := by
  obtain ⟨b, rfl⟩ := exists_bytes_of_hasExtension hn
  obtain ⟨b', rfl⟩ := exists_bytes_of_hasExtension hn'
  have hbne : b ≠ b' := fun hb => hne (by rw [hb])
  obtain ⟨hdot, hcases⟩ := eq_of_stem_eq hbne (List.append_cancel_right h)
  refine ⟨fun hmem => hdot (dot_mem_encode_iff.mpr hmem), ?_⟩
  rw [bareName_eq, doubleName_eq]
  rcases hcases with ⟨rfl, rfl⟩ | ⟨rfl, rfl⟩
  · exact Or.inl ⟨rfl, rfl⟩
  · exact Or.inr ⟨rfl, rfl⟩

/-- Two artifacts of one directory share a stem: the bare one has no other, and the double one has the
bare one's. -/
def Shares (fs : FileSystem) (extension : String) (a a' : Path) : Prop :=
  '.' ∉ extension.toList ∧
    ∃ d, fs.Denotes a (d ++ [bareName extension]) ∧ fs.Denotes a' (d ++ [doubleName extension])

section Listing

variable {p : Path} (hfs : s.files.IsPlainTree) (h : IsListing s.files extension p l found)
  (hext : '/' ∉ c.bindingExtension.toList)

include hfs h hext

/-- Bindings of a listing that share a file are those of one artifact, or of two that share a stem. -/
theorem eq_or_shares (ha : a ∈ found) (ha' : a' ∈ found) {m : Location} {b : Bytes}
    (hm : (bindAll c s found).1.files.Denotes (bindingPath c a) m)
    (hm' : (bindAll c s found).1.files.Denotes (bindingPath c a') m)
    (hfile : (bindAll c s found).1.files.entryAt? m = some (.file b)) :
    a = a' ∨ Shares s.files extension a a' ∨ Shares s.files extension a' a := by
  obtain ⟨d, n, hart, hn⟩ := exists_isArtifact hfs h ha
  obtain ⟨d', n', hart', hn'⟩ := exists_isArtifact hfs h ha'
  have harts := areArtifacts_of_isListing hfs h
  obtain ⟨hplain, _, hkeep⟩ := harts.run (c := c)
  rw [← bindAll_files harts hext] at hplain hkeep
  have hplace := eq_of_denotes_bindingPath hplain (hkeep a d n hart) hext hm hfile
  have hplace' := eq_of_denotes_bindingPath hplain (hkeep a' d' n' hart') hext hm' hfile
  obtain ⟨rfl, htarget⟩ := List.append_inj' (hplace.symm.trans hplace') rfl
  by_cases hne : n = n'
  · subst hne
    exact Or.inl (h.eq_of_denotes hfs ha ha' hart.denotes hart'.denotes)
  · obtain ⟨hdot, hcases⟩ := eq_of_targetName_eq hn hn' hne (List.cons.inj htarget).1
    right
    rcases hcases with ⟨rfl, rfl⟩ | ⟨rfl, rfl⟩
    · exact Or.inl ⟨hdot, d, hart.denotes, hart'.denotes⟩
    · exact Or.inr ⟨hdot, d, hart'.denotes, hart.denotes⟩

/-- Artifacts that share a stem have one binding path, and are two. -/
theorem bindingPath_of_shares (ha : a ∈ found) (ha' : a' ∈ found)
    (hshares : Shares s.files extension a a') : bindingPath c a = bindingPath c a' ∧ a ≠ a' := by
  obtain ⟨hdot, d, hd, hd'⟩ := hshares
  obtain ⟨e, n, hart, _⟩ := exists_isArtifact hfs h ha
  obtain ⟨e', n', hart', _⟩ := exists_isArtifact hfs h ha'
  obtain ⟨rfl, hn⟩ := List.append_inj' (hart.denotes.unique hd) rfl
  obtain ⟨rfl, hn'⟩ := List.append_inj' (hart'.denotes.unique hd') rfl
  cases hn
  cases hn'
  refine ⟨bindingPath_congr hfs h ha ha' hart hart' hext (targetName_bareName c hdot), ?_⟩
  rintro rfl
  have hsame := List.append_inj' (hd.unique hd') rfl
  exact bareName_ne_doubleName extension (List.cons.inj hsame.2).1

/-- **No binding of a listing is lost exactly if** no two of its artifacts that were bound share a stem. -/
theorem isIntact_listing_iff (hsub : (bound.map Bound.path).Sublist found)
    (hdoc : ∀ x ∈ bound, loadArtifact s.files x.path = .ok x.doc)
    (hwritten : Written (Bound.target c) (Bound.bytes c) s.files (bindAll c s found).1.files bound) :
    IsIntact c (bindAll c s found).1.files bound ↔
      ∀ x ∈ bound, ∀ y ∈ bound, ¬ Shares s.files extension x.path y.path := by
  have hmem : ∀ x ∈ bound, x.path ∈ found := fun x hx => hsub.subset (List.mem_map_of_mem hx)
  constructor
  · intro hintact x hx y hy hshares
    obtain ⟨htarget, hne⟩ := bindingPath_of_shares hfs h hext (hmem x hx) (hmem y hy) hshares
    exact hne (congrArg Bound.path (List.inj_on_of_nodup_map hintact.nodup hx hy htarget))
  · intro hapart
    -- what leads to one file comes from one artifact
    have hone : ∀ x ∈ bound, ∀ y ∈ bound, ∀ m,
        (bindAll c s found).1.files.Denotes (x.target c) m →
        (bindAll c s found).1.files.Denotes (y.target c) m → x = y := by
      intro x hx y hy m hxm hym
      obtain ⟨k, z, hk, _, hfile⟩ := hwritten.exists_last hx
      have hkm := hk.unique hxm
      subst hkm
      rcases eq_or_shares hfs h hext (hmem x hx) (hmem y hy) hxm hym hfile with hpath | hshares | hshares
      · have hdocs := hdoc x hx
        rw [hpath, hdoc y hy] at hdocs
        cases x
        cases y
        cases hpath
        cases hdocs
        rfl
      · exact absurd hshares (hapart x hx y hy)
      · exact absurd hshares (hapart y hy x hx)
    refine (isIntact_iff hwritten).mpr ⟨?_, ?_⟩
    · have hnodup : bound.Nodup := (h.nodup.sublist hsub).of_map _
      refine hnodup.map_on fun x hx y hy htarget => ?_
      obtain ⟨m, hm⟩ := hwritten.leads x hx
      exact hone x hx y hy m hm (htarget ▸ hm)
    · intro x hx y hy m hxm hym
      rw [hone x hx y hy m hxm hym]

end Listing

/-! ## Runs -/

variable {report : Report}

/-- A run that ends well had a directory of artifacts to search. -/
theorem exists_found_of_ok (hrun : (generate c .precompiled s).2 = .ok report) :
    s.files.isDirectory c.artifacts = true ∧
      ∃ found, findArtifacts s.files c.artifacts c.artifactExtension = .ok found := by
  have hdir : s.files.isDirectory c.artifacts = true := by
    by_contra hnot
    rw [generate, Compiler.compile] at hrun
    simp [Session.tell, hnot] at hrun
  refine ⟨hdir, ?_⟩
  cases hfound : findArtifacts s.files c.artifacts c.artifactExtension with
  | ok found => exact ⟨found, rfl⟩
  | error e =>
    rw [generate, Compiler.compile] at hrun
    simp [Session.tell, hdir, hfound] at hrun

/--
How a report comes about: every artifact that is found has its turn, in order; it is reported with the path
of its binding or with the reason why it has none.  What was bound is the document that the artifact held
before the run.
-/
structure IsAccount (c : Config) (before : FileSystem) (found : List Path) (report : Report)
    (turns : List Turn) : Prop where
  artifacts : report.artifacts = found.length
  inTurn : turns.map Turn.path = found
  generated : report.generated = (boundOf turns).map (Bound.target c)
  skipped : report.skipped = skippedOf turns
  loaded : ∀ x ∈ boundOf turns, loadArtifact before x.path = .ok x.doc

/--
**What a run reports and writes**, in any tree and with any configuration.  Every path that is reported
leads to a file with the binding of the last artifact whose path leads there.  No binding is lost exactly if
no path is reported twice and bindings that share a file are the same; in a tree without links, exactly if
no two artifacts share a stem.
-/
theorem generate_bound (hfs : s.files.IsNested) (hrun : (generate c .precompiled s).2 = .ok report) :
    ∃ found turns,
      findArtifacts s.files c.artifacts c.artifactExtension = .ok found ∧
      IsAccount c s.files found report turns ∧
      Written (Bound.target c) (Bound.bytes c) s.files (generate c .precompiled s).1.files
        (boundOf turns) ∧
      (IsIntact c (generate c .precompiled s).1.files (boundOf turns) ↔
        ((boundOf turns).map (Bound.target c)).Nodup ∧
          ∀ x ∈ boundOf turns, ∀ y ∈ boundOf turns, ∀ l,
            (generate c .precompiled s).1.files.Denotes (x.target c) l →
            (generate c .precompiled s).1.files.Denotes (y.target c) l → x.bytes c = y.bytes c) ∧
      (s.files.IsPlainTree → IsPlainExtension c.artifactExtension → '/' ∉ c.bindingExtension.toList →
        (IsIntact c (generate c .precompiled s).1.files (boundOf turns) ↔
          ∀ x ∈ boundOf turns, ∀ y ∈ boundOf turns,
            ¬ Shares s.files c.artifactExtension x.path y.path)) := by
  obtain ⟨hdir, found, hfound⟩ := exists_found_of_ok hrun
  obtain ⟨s', hs', hfiles, hreport⟩ := generate_of_found hdir hfound
  have hpaths : ∀ a ∈ found, ∃ l, s'.files.Denotes a l := by
    intro a ha
    rw [hs']
    exact exists_denotes_of_mem hfound ha
  obtain ⟨turns, hturns, hboth, hloaded, hwritten⟩ := bindAll_written (c := c) (hs' ▸ hfs) hpaths
  rw [hreport, hboth] at hrun
  cases hrun
  rw [hfiles]
  refine ⟨found, turns, hfound, ⟨rfl, hturns, rfl, rfl, hs' ▸ hloaded⟩, hs' ▸ hwritten,
    isIntact_iff hwritten, fun hplain hextension hext => ?_⟩
  rw [← hs'] at hplain hfound ⊢
  rcases eq_nil_or_isListing hplain hextension hfound with rfl | ⟨p, l, hlisting⟩
  · -- nothing was found, so nothing was bound
    have hnil : turns = [] := List.map_eq_nil_iff.mp hturns
    subst hnil
    refine ⟨fun _ x hx => absurd hx List.not_mem_nil, fun _ => ⟨List.nodup_nil, ?_⟩⟩
    exact fun x hx => absurd hx List.not_mem_nil
  · exact isIntact_listing_iff hplain hlisting hext (hturns ▸ sublist_boundOf turns) hloaded hwritten

/-- The run over the sample. -/
theorem generate_bound_sample :
    ∃ report, (generate sampleConfig .precompiled sampleSession).2 = .ok report ∧ ∃ found turns,
      findArtifacts sampleSession.files sampleConfig.artifacts sampleConfig.artifactExtension =
        .ok found ∧
      IsAccount sampleConfig sampleSession.files found report turns ∧
      Written (Bound.target sampleConfig) (Bound.bytes sampleConfig) sampleSession.files
        (generate sampleConfig .precompiled sampleSession).1.files (boundOf turns) ∧
      IsIntact sampleConfig (generate sampleConfig .precompiled sampleSession).1.files
        (boundOf turns) := by
  obtain ⟨_, _, _, hreport⟩ :=
    generate_of_found (c := sampleConfig) isDirectory_sample findArtifacts_sample
  obtain ⟨found, turns, hfound, haccount, hwritten, _, hiff⟩ :=
    generate_bound isPlainTree_sample.isNested hreport
  refine ⟨_, hreport, found, turns, hfound, haccount, hwritten, ?_⟩
  refine (hiff isPlainTree_sample (by decide) (by decide)).mpr fun x hx y _ hshares => ?_
  -- no artifact of the sample is named by its extension alone
  obtain ⟨_, d, hd, _⟩ := hshares
  have hx' : x.path ∈ [Path.ofString "T.json", Path.ofString "U.json"] := by
    have hsame := hfound.symm.trans findArtifacts_sample
    cases hsame
    exact haccount.inTurn ▸ mem_of_mem_boundOf hx
  have hT : sampleSession.files.Denotes (Path.ofString "T.json") ([encode "w"] ++ [encode "T.json"]) := by
    cbv
  have hU : sampleSession.files.Denotes (Path.ofString "U.json") ([encode "w"] ++ [encode "U.json"]) := by
    cbv
  rcases List.mem_pair.mp hx' with h | h
  · rw [h] at hd
    have hname := (List.append_inj' (hd.unique hT) rfl).2
    have hne : [bareName sampleConfig.artifactExtension] ≠ [encode "T.json"] := by decide +kernel
    exact hne hname
  · rw [h] at hd
    have hname := (List.append_inj' (hd.unique hU) rfl).2
    have hne : [bareName sampleConfig.artifactExtension] ≠ [encode "U.json"] := by decide +kernel
    exact hne hname

/-! ## Runs that lose a binding -/

/-- A run that accounts for its artifacts loses no binding. -/
def LosesNothing (c : Config) (s : Session) : Prop :=
  ∀ report, (generate c .precompiled s).2 = .ok report → ∃ found turns,
    findArtifacts s.files c.artifacts c.artifactExtension = .ok found ∧
    IsAccount c s.files found report turns ∧
    IsIntact c (generate c .precompiled s).1.files (boundOf turns)

/-- The report of a run over two artifacts that are both bound, whatever the first binding holds. -/
theorem generated_pair (a a' : Path) (l : Location) (doc doc' : Abi.Document) {report : Report}
    (hdir : s.files.isDirectory c.artifacts = true)
    (hfound : findArtifacts s.files c.artifacts c.artifactExtension = .ok [a, a'])
    (hload : loadArtifact s.files a = .ok doc)
    (hput : ∀ b, s.files.putFile (bindingPath c a) b = .ok (s.files.set l (.file b)))
    (hload' : ∀ b, loadArtifact (s.files.set l (.file b)) a' = .ok doc')
    (hput' : ∀ b b', ∃ fs', (s.files.set l (.file b)).putFile (bindingPath c a') b' = .ok fs')
    (hrun : (generate c .precompiled s).2 = .ok report) :
    report.generated = [bindingPath c a, bindingPath c a'] := by
  obtain ⟨s', hs', _, hreport⟩ := generate_of_found hdir hfound
  rw [hreport] at hrun
  cases hrun
  rw [← hs'] at hload hput hload' hput'
  obtain ⟨s₁, hs₁, hfirst⟩ := generated_cons (c := c) [a'] hload (hput (Bound.bytes c ⟨a, doc⟩))
  obtain ⟨fs', hsecond⟩ := hput' (Bound.bytes c ⟨a, doc⟩) (Bound.bytes c ⟨a', doc'⟩)
  have hload₁ := hload' (Bound.bytes c ⟨a, doc⟩)
  rw [← hs₁] at hload₁ hsecond
  obtain ⟨s₂, _, hlast⟩ := generated_cons (c := c) [] hload₁ hsecond
  rw [hfirst, hlast]
  rfl

/-- Two artifacts that share a stem. -/
def dottedSession : Session where
  files :=
    ⟨[([encode "w"], .directory),
      ([encode "w", encode ".json"], .file (encode "\x7b\"abi\": []\x7d")),
      ([encode "w", encode ".json.json"], .file (encode "\x7b\"abi\": []\x7d"))], [encode "w"]⟩
  searchPath := []

/-- Two artifacts, the binding of the first one, and a link to it in the place of the second one's. -/
def sharedSession : Session where
  files :=
    ⟨[([encode "w"], .directory),
      ([encode "w", encode "A.json"], .file (encode "\x7b\"abi\": []\x7d")),
      ([encode "w", encode "A.ts"], .file []),
      ([encode "w", encode "B.json"], .file (encode "\x7b\"abi\": []\x7d")),
      ([encode "w", encode "B.ts"], .link (Path.ofString "A.ts"))], [encode "w"]⟩
  searchPath := []

theorem generated_dotted {report : Report}
    (hrun : (generate sampleConfig .precompiled dottedSession).2 = .ok report) :
    report.generated = [Path.ofString ".json.ts", Path.ofString ".json.ts"] := by
  have hpair := generated_pair (Path.ofString ".json") (Path.ofString ".json.json")
    [encode "w", encode ".json.ts"] ⟨[]⟩ ⟨[]⟩
    (by cbv) (by cbv) (by cbv) (fun b => by cbv) (fun b => by cbv) (fun b b' => ⟨_, by cbv⟩) hrun
  rw [hpair]
  cbv

theorem generated_shared {report : Report}
    (hrun : (generate sampleConfig .precompiled sharedSession).2 = .ok report) :
    report.generated = [Path.ofString "A.ts", Path.ofString "B.ts"] := by
  have hpair := generated_pair (Path.ofString "A.json") (Path.ofString "B.json")
    [encode "w", encode "A.ts"] ⟨[]⟩ ⟨[]⟩
    (by cbv) (by cbv) (by cbv) (fun b => by cbv) (fun b => by cbv) (fun b b' => ⟨_, by cbv⟩) hrun
  rw [hpair]
  cbv

/-- A binding begins with its banner. -/
theorem banner_isPrefix (dialect : Binding.Dialect) (contract : String) (doc : Abi.Document)
    (signatures : List Signature) :
    (Binding.banner contract).toList <+:
      (BindingModule.render dialect contract doc signatures).source.toList := by
  unfold BindingModule.render
  simp only [String.toList_append, List.append_assoc]
  exact List.prefix_append _ _

/-- Bindings with other banners are different. -/
theorem bytes_ne_of_banner
    (h : ¬ (Binding.banner (contractName x.path)).toList <+: (Binding.banner (contractName y.path)).toList)
    (h' : ¬ (Binding.banner (contractName y.path)).toList <+:
      (Binding.banner (contractName x.path)).toList) : x.bytes c ≠ y.bytes c := by
  intro hsame
  have hx := banner_isPrefix c.dialect (contractName x.path) x.doc (Signature.ofDocument x.doc)
  have hy := banner_isPrefix c.dialect (contractName y.path) y.doc (Signature.ofDocument y.doc)
  have hsource : (bindingOf c (contractName x.path) x.doc).source =
      (bindingOf c (contractName y.path) y.doc).source := encode_injective hsame
  unfold bindingOf at hsource
  rw [hsource] at hx
  rcases List.prefix_or_prefix_of_prefix hx hy with hprefix | hprefix
  · exact h hprefix
  · exact h' hprefix

/-- **A run over two artifacts whose bindings lead to one file loses one of them**, if the names of the
contracts differ. -/
theorem not_losesNothing_of_shared (a a' : Path) (l : Location) (hfs : s.files.IsNested)
    (hdir : s.files.isDirectory c.artifacts = true)
    (hfound : findArtifacts s.files c.artifacts c.artifactExtension = .ok [a, a'])
    (hgenerated : ∀ report, (generate c .precompiled s).2 = .ok report →
      report.generated = [bindingPath c a, bindingPath c a'])
    (ha : s.files.Denotes (bindingPath c a) l) (ha' : s.files.Denotes (bindingPath c a') l)
    (hne : bindingPath c a ≠ bindingPath c a')
    (hbanner : ¬ (Binding.banner (contractName a)).toList <+: (Binding.banner (contractName a')).toList)
    (hbanner' : ¬ (Binding.banner (contractName a')).toList <+:
      (Binding.banner (contractName a)).toList) : ¬ LosesNothing c s := by
  intro hkeeps
  obtain ⟨s', hs', hfiles, hreport⟩ := generate_of_found hdir hfound
  obtain ⟨found, turns, hfound', haccount, hintact⟩ := hkeeps _ hreport
  rw [hfound] at hfound'
  cases hfound'
  -- both paths lead to the same file, before and after the run
  have hchanges := changes_bindAll (c := c) (s := s') (hs' ▸ hfs) [a, a']
  rw [← hfiles, hs'] at hchanges
  have hsame := contentsAt_congr (hchanges.onlyFiles.denotes ha) (hchanges.onlyFiles.denotes ha')
  have hpaths := haccount.generated.symm.trans (hgenerated _ hreport)
  have hmem : ∀ x ∈ boundOf turns, x.path ∈ [a, a'] := by
    intro x hx
    exact haccount.inTurn ▸ mem_of_mem_boundOf hx
  obtain ⟨x, rest, hbound, hx, hrest⟩ := List.map_eq_cons_iff.mp hpaths
  obtain ⟨y, rest', hbound', hy, _⟩ := List.map_eq_cons_iff.mp hrest
  have hxmem : x ∈ boundOf turns := by rw [hbound]; simp
  have hymem : y ∈ boundOf turns := by rw [hbound, hbound']; simp
  have hxa : x.path = a := by
    refine (List.mem_pair.mp (hmem x hxmem)).resolve_right fun hxa' => hne ?_
    rw [← hx, Bound.target, hxa']
  have hya : y.path = a' := by
    refine (List.mem_pair.mp (hmem y hymem)).resolve_left fun hya => hne ?_
    rw [← hy, Bound.target, hya]
  have hbytes : x.bytes c = y.bytes c := by
    have hownx := hintact.own x hxmem
    have howny := hintact.own y hymem
    rw [hx, hsame, ← hy, howny] at hownx
    exact (Except.ok.inj hownx).symm
  refine bytes_ne_of_banner ?_ ?_ hbytes
  · rw [hxa, hya]
    exact hbanner
  · rw [hxa, hya]
    exact hbanner'

/--
**Two runs that lose a binding**: two artifacts share a stem, and the path of a binding is a link to another
one.
-/
theorem not_losesNothing_sample :
    (dottedSession.files.IsPlainTree ∧ ¬ LosesNothing sampleConfig dottedSession) ∧
      (sharedSession.files.IsTree ∧ ¬ LosesNothing sampleConfig sharedSession) := by
  have htree : sharedSession.files.IsTree := by decide +kernel
  refine ⟨⟨by decide +kernel, fun hkeeps => ?_⟩, ⟨htree, ?_⟩⟩
  · have hfound : findArtifacts dottedSession.files sampleConfig.artifacts
        sampleConfig.artifactExtension =
          .ok [Path.ofString ".json", Path.ofString ".json.json"] := by cbv
    obtain ⟨_, _, _, hreport⟩ := generate_of_found (by cbv) hfound
    obtain ⟨found, turns, _, haccount, hintact⟩ := hkeeps _ hreport
    have hnodup := hintact.nodup
    rw [← haccount.generated, generated_dotted hreport] at hnodup
    exact absurd hnodup (by decide)
  · have hpathA : bindingPath sampleConfig (Path.ofString "A.json") = Path.ofString "A.ts" := by cbv
    have hpathB : bindingPath sampleConfig (Path.ofString "B.json") = Path.ofString "B.ts" := by cbv
    refine not_losesNothing_of_shared (Path.ofString "A.json") (Path.ofString "B.json")
      [encode "w", encode "A.ts"] htree.isNested (by cbv) (by cbv) ?_ (by cbv) (by cbv) ?_
      (by decide +kernel) (by decide +kernel)
    · intro report hrun
      rw [hpathA, hpathB]
      exact generated_shared hrun
    · rw [hpathA, hpathB]
      decide

end ContractBindings.Generate
