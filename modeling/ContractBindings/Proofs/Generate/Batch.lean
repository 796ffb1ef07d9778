import ContractBindings.Proofs.Generate.Beside

/-!
# Batch runs

What a run over artifacts that exist already does to a tree without links.

* `ofText_source`: the source of a binding is no artifact, so what is written is never read
  (`isBatch_jobs`);
* `binding?`: the binding of an artifact, computed from the tree before the run;
* `isSteady_jobs`: if no binding has the extension of artifacts, no artifact is overwritten;
* `generate_precompiled`: so the whole effect of a run can be said from the tree before it
  (`IsBatchRun`).
-/

set_option autoImplicit false

namespace ContractBindings.Generate

open Text ContractBindings.Path FileSystem Glob

variable {fs : FileSystem} {c : Config} {a : Path} {d : Location} {n : Name} {as : List Path}

/-! ## Bindings are no artifacts -/

/-- Every binding begins with a comment. -/
theorem toList_source (dialect : Binding.Dialect) (contract : String) (doc : Abi.Document)
    (signatures : List Signature) :
    ∃ rest, (BindingModule.render dialect contract doc signatures).source.toList = '/' :: rest := by
  have happend : ∀ s t : String, (∃ rest, s.toList = '/' :: rest) →
      ∃ rest, (s ++ t).toList = '/' :: rest := by
    rintro s t ⟨rest, hrest⟩
    exact ⟨rest ++ t.toList, by rw [String.toList_append, hrest]; rfl⟩
  have hbanner : ∃ rest, (Binding.banner contract).toList = '/' :: rest := by
    unfold Binding.banner
    exact happend _ _ (happend _ _ ⟨_, rfl⟩)
  unfold BindingModule.render
  simp only
  iterate 8 refine happend _ _ ?_
  exact hbanner

/-- **The source of a binding is no artifact**: a comment is no JSON. -/
theorem ofText_source (dialect : Binding.Dialect) (contract : String) (doc : Abi.Document)
    (signatures : List Signature) :
    (Abi.Document.ofText (BindingModule.render dialect contract doc signatures).source).toOption =
      none := by
  obtain ⟨rest, hrest⟩ := toList_source dialect contract doc signatures
  generalize (BindingModule.render dialect contract doc signatures).source = source at hrest
  have hvalue : ∀ budget nested, Json.Reader.valueWith budget nested ('/' :: rest) =
      .error (.first .expectedValue ('/' :: rest)) := by
    intro budget nested
    rfl
  have hparse : Json.parse source = .error (.ofFault source (.first .expectedValue ('/' :: rest))) := by
    unfold Json.parse Json.Reader.run Json.maxDepth
    rw [hrest, Json.Reader.value, hvalue]
  simp [Abi.Document.ofText, hparse, Except.toOption]

/-- What a run writes. -/
def IsBinding (c : Config) (b : Bytes) : Prop :=
  ∃ contract doc, b = encode (bindingOf c contract doc).source

theorem isBinding_of_makeBinding {b b' : Bytes} (h : makeBinding c n b = some b') :
    IsBinding c b' := by
  obtain ⟨text, _, hb⟩ := Option.bind_eq_some_iff.mp h
  obtain ⟨doc, _, rfl⟩ := Option.map_eq_some_iff.mp hb
  exact ⟨_, doc, rfl⟩

theorem makeBinding_of_isBinding {b : Bytes} (h : IsBinding c b) : makeBinding c n b = none := by
  obtain ⟨contract, doc, rfl⟩ := h
  simp [makeBinding, decode?_encode, bindingOf, ofText_source]

/-- **The jobs of artifacts cannot use what they write.** -/
theorem isBatch_jobs (h : AreArtifacts fs as) : IsBatch (as.map (jobOf c fs)) (IsBinding c) := by
  refine ⟨?_, ?_, ?_⟩ <;> intro j hj <;> obtain ⟨a, ha, rfl⟩ := List.mem_map.mp hj <;>
    obtain ⟨d, n, hart⟩ := h.artifact a ha <;> rw [hart.jobOf_eq]
  · exact target_jobAt_ne_nil c d n
  · rw [jobAt_append]
    exact fun b b' hb => isBinding_of_makeBinding hb
  · rw [jobAt_append]
    exact fun b hb => makeBinding_of_isBinding hb

/-! ## What can be said before the run -/

/-- The binding of an artifact: its bytes have to be text, the text a document, and no directory may stand
in the place of the binding. -/
def binding? (c : Config) (fs : FileSystem) (a : Path) : Option Bytes :=
  match fs.contentsAt a with
  | .error _ => none
  | .ok bytes =>
    (decode? bytes).bind fun text => (Abi.Document.ofText text).toOption.bind fun doc =>
      if fs.isDirectory (bindingPath c a) then none
      else some (encode (bindingOf c (contractName a) doc).source)

theorem zero_not_mem_targetName (hn : IsName n) (h0 : '\x00' ∉ c.bindingExtension.toList) :
    (0 : UInt8) ∉ targetName c n := by
  have hstem : (0 : UInt8) ∉ stem n := fun hm => hn.no_nul ((stem_isPrefix n).subset hm)
  have hexte : (0 : UInt8) ∉ encode c.bindingExtension := by
    rw [mem_encode_iff (by decide)]; exact h0
  have hdot : (0 : UInt8) ≠ dot := by decide
  simp [targetName, hstem, hexte, hdot]

theorem isDirectory_bindingPath (hfs : fs.IsPlainTree) (ha : IsArtifact fs a d n)
    (hext : '/' ∉ c.bindingExtension.toList) (h0 : '\x00' ∉ c.bindingExtension.toList) :
    fs.isDirectory (bindingPath c a) = true ↔
      (IsName (targetName c n) → fs.isDirectoryAt (d ++ [targetName c n]) = true) := by
  have hzero := zero_not_mem_targetName ha.name h0
  have hd := directory_of_isArtifact hfs ha
  have hloc := locate_bindingPath hfs ha hext hzero
  by_cases hdots : targetName c n = [dot, dot]
  · obtain ⟨hup, hdir⟩ := denotes_up hfs hd
    have hstep : stepOfPiece (targetName c n) = .up := by rw [hdots]; rfl
    rw [hstep, hup] at hloc
    refine ⟨fun _ hname => absurd hdots hname.ne_dots, fun _ => ?_⟩
    exact isDirectory_iff.mpr ⟨_, hloc, hdir⟩
  · have hname := (isName_targetName_iff ha.name hext).mpr ⟨hdots, hzero⟩
    rw [stepOfPiece_of_isName hname] at hloc
    cases he : fs.entryAt? (d ++ [targetName c n]) with
    | none =>
      rw [route_down_none hd he] at hloc
      simp [isDirectory, lookup, hloc, hname, isDirectoryAt, he]
    | some e =>
      rw [route_down_some hfs (by simp [he]), route_nil] at hloc
      rw [Denotes.isDirectory_eq (l := d ++ [targetName c n]) hloc]
      simp [hname]

theorem binding?_eq (c : Config) (fs : FileSystem) (a : Path) :
    binding? c fs a = (loadArtifact fs a).toOption.bind fun doc =>
      if fs.isDirectory (bindingPath c a) then none
      else some (encode (bindingOf c (contractName a) doc).source) := by
  unfold binding?
  rw [toOption_loadArtifact]
  cases fs.contentsAt a with
  | error e => rfl
  | ok bytes => simp only [Except.toOption, Option.bind_some, Option.bind_assoc]

/-- **What a job does at the start of a run is to write the binding of its artifact.** -/
theorem effect?_jobOf (hfs : fs.IsPlainTree) (ha : IsArtifact fs a d n)
    (hext : '/' ∉ c.bindingExtension.toList) (h0 : '\x00' ∉ c.bindingExtension.toList) :
    (jobOf c fs a).effect? fs = (binding? c fs a).map (d ++ [targetName c n], ·) := by
  have hdirectory := isDirectory_bindingPath hfs ha hext h0
  rw [effect?_of_loadArtifact hfs ha, binding?_eq]
  cases hdir : fs.isDirectory (bindingPath c a) with
  | true =>
    rw [if_neg fun h => by simp [hdirectory.mp hdir h.1] at h]
    cases (loadArtifact fs a).toOption <;> rfl
  | false =>
    have hfree : IsName (targetName c n) ∧ fs.isDirectoryAt (d ++ [targetName c n]) = false := by
      by_contra hnot
      have hyes := hdirectory.mpr fun hname => by simpa [hname] using hnot
      rw [hdir] at hyes
      cases hyes
    rw [if_pos hfree]
    cases (loadArtifact fs a).toOption <;> rfl

/-! ## Extensions -/

/-- Neither extension is the other one, nor ends with it behind a dot. -/
structure AreApart (extension other : String) : Prop where
  ne : extension ≠ other
  not_behind : ∀ s, extension ≠ s ++ "." ++ other
  not_before : ∀ s, other ≠ s ++ "." ++ extension

/-- **No binding looks like an artifact**, if the extensions are apart. -/
theorem not_hasExtension_targetName {extension : String} (ht : ∃ t, n = encode t)
    (h : AreApart extension c.bindingExtension) : ¬ HasExtension extension (targetName c n) := by
  obtain ⟨t, rfl⟩ := ht
  obtain ⟨u, hu⟩ := stem_encode t
  rintro ⟨before, he⟩
  have hname : targetName c (encode t) = encode (u ++ "." ++ c.bindingExtension) := by
    rw [targetName, hu, encode_append, encode_append, List.append_assoc]
    rfl
  rw [hname] at he
  have hchars := congrArg String.toList (encode_injective he)
  simp only [String.toList_append, List.append_assoc] at hchars
  -- the longer one of the two ends with the other
  rcases List.append_eq_append_iff.mp hchars with ⟨x, _, hx⟩ | ⟨x, _, hx⟩
  · cases x with
    | nil => exact h.ne (String.toList_injective (by simpa using hx.symm))
    | cons y x =>
      refine h.not_before (String.ofList x) (String.toList_injective ?_)
      have := (List.cons.inj hx).2
      simpa using this
  · cases x with
    | nil => exact h.ne (String.toList_injective (by simpa using hx))
    | cons y x =>
      refine h.not_behind (String.ofList x) (String.toList_injective ?_)
      have := (List.cons.inj hx).2
      simpa using this

variable {extension : String} {p : Path} {l : Location} {found : List Path}

theorem exists_isArtifact (hfs : fs.IsPlainTree) (h : IsListing fs extension p l found)
    (ha : a ∈ found) : ∃ d n, IsArtifact fs a d n ∧ HasExtension extension n := by
  obtain ⟨d, n, hfile, before, hn⟩ := h.isFileIn hfs ha
  exact ⟨d, n, ⟨hfile, _, hn⟩, before, hn⟩

theorem areArtifacts_of_isListing (hfs : fs.IsPlainTree) (h : IsListing fs extension p l found) :
    AreArtifacts fs found := by
  refine ⟨hfs, fun a ha => ?_⟩
  obtain ⟨d, n, hart, _⟩ := exists_isArtifact hfs h ha
  exact ⟨d, n, hart⟩

/-- **No artifact is overwritten**, if the extensions are apart. -/
theorem isSteady_jobs (hfs : fs.IsPlainTree) (h : IsListing fs extension p l found)
    (hapart : AreApart extension c.bindingExtension) :
    IsSteady fs (found.map (jobOf c fs)) := by
  intro i hi j hj b hw
  obtain ⟨a, ha, rfl⟩ := List.mem_map.mp hi
  obtain ⟨a', ha', rfl⟩ := List.mem_map.mp hj
  obtain ⟨d, n, hart, _⟩ := exists_isArtifact hfs h ha
  obtain ⟨d', n', hart', hext⟩ := exists_isArtifact hfs h ha'
  have ht := (Job.effect?_eq_some_iff.mp hw).1
  rw [hart.jobOf_eq, hart'.jobOf_eq] at ht
  have hsame := List.append_inj' (target_jobAt c d n ht).1 rfl
  have hname : n' = targetName c n := (List.cons.inj hsame.2).1
  exact absurd (hname ▸ hext) (not_hasExtension_targetName hart.text hapart)

/-- Bindings in one place have one path. -/
theorem bindingPath_congr (hfs : fs.IsPlainTree) (h : IsListing fs extension p l found) {a' : Path}
    {n' : Name} (ha : a ∈ found) (ha' : a' ∈ found) (hart : IsArtifact fs a d n)
    (hart' : IsArtifact fs a' d n') (hext : '/' ∉ c.bindingExtension.toList)
    (hname : targetName c n = targetName c n') : bindingPath c a = bindingPath c a' := by
  obtain ⟨ps, hps, hps'⟩ := h.pieces_congr hfs ha ha' hart.toIsFileIn hart'.toIsFileIn
  rw [bindingPath_eq hps hart.name hart.text, bindingPath_eq hps' hart'.name hart'.text, ← hname]
  exact withFileName_congr hps hps' hart.name hart'.name (separator_not_mem_targetName hart.name hext)

/-! ## The whole effect -/

/--
What a run does, said from the tree before it.  Every artifact is accounted for once and in order; a
path that is reported holds the binding of the last artifact with this binding path; nothing else has
changed.
-/
structure IsBatchRun (c : Config) (before after : FileSystem) (found : List Path) (report : Report) :
    Prop where
  artifacts : report.artifacts = found.length
  generated : report.generated =
    (found.filter fun a => (binding? c before a).isSome).map (bindingPath c)
  skipped : report.skipped.map Skipped.path = found.filter fun a => (binding? c before a).isNone
  beside : ∀ a ∈ found, (binding? c before a).isSome → ∃ d n,
    before.Denotes a (d ++ [n]) ∧
      after.Denotes (bindingPath c a) (d ++ [stem n ++ encode ("." ++ c.bindingExtension)])
  written : ∀ p ∈ report.generated, ∃ a b,
    (found.filter fun a => (binding? c before a).isSome && bindingPath c a = p).getLast? = some a ∧
      binding? c before a = some b ∧ after.contentsAt p = .ok b
  unchanged : ∀ l, (∀ p ∈ report.generated, ¬ after.Denotes p l) → after.entryAt? l = before.entryAt? l
  artifacts_unchanged : ∀ a ∈ found, ∀ l, before.Denotes a l →
    after.Denotes a l ∧ after.entryAt? l = before.entryAt? l
  workingDirectory : after.workingDirectory = before.workingDirectory

/-- A binding path that is no directory leads to the place of the binding, whether a file is there or
not. -/
theorem locate_of_not_directory (hfs : fs.IsPlainTree) (ha : IsArtifact fs a d n)
    (hext : '/' ∉ c.bindingExtension.toList) (h0 : '\x00' ∉ c.bindingExtension.toList)
    (hnot : fs.isDirectory (bindingPath c a) = false) :
    fs.locate true (bindingPath c a) = .ok (.found (d ++ [targetName c n])) ∨
      fs.locate true (bindingPath c a) = .ok (.vacant (d ++ [targetName c n]) false) := by
  have hname : IsName (targetName c n) := by
    by_contra h
    rw [(isDirectory_bindingPath hfs ha hext h0).mpr fun h' => absurd h' h] at hnot
    cases hnot
  have hloc := locate_bindingPath hfs ha hext hname.no_nul
  have hd := directory_of_isArtifact hfs ha
  rw [stepOfPiece_of_isName hname] at hloc
  rw [hloc]
  cases he : fs.entryAt? (d ++ [targetName c n]) with
  | none => right; rw [route_down_none hd he]; rfl
  | some e => left; rw [route_down_some hfs (by simp [he]), route_nil]

theorem not_directory_of_binding? (h : (binding? c fs a).isSome) :
    fs.isDirectory (bindingPath c a) = false := by
  rw [Bool.eq_false_iff]
  intro hd
  unfold binding? at h
  simp only [hd, if_true] at h
  split at h
  · cases h
  · simp at h

theorem isName_targetName_of_binding? (hfs : fs.IsPlainTree) (ha : IsArtifact fs a d n)
    (hext : '/' ∉ c.bindingExtension.toList) (h0 : '\x00' ∉ c.bindingExtension.toList)
    (h : (binding? c fs a).isSome) : IsName (targetName c n) := by
  have hnot := not_directory_of_binding? h
  by_contra hname
  rw [(isDirectory_bindingPath hfs ha hext h0).mpr fun h' => absurd h' hname] at hnot
  cases hnot

/-- Bindings with one path have one place. -/
theorem target_congr (hfs : fs.IsPlainTree) {a' : Path} {d' : Location} {n' : Name}
    (hart : IsArtifact fs a d n) (hart' : IsArtifact fs a' d' n')
    (hext : '/' ∉ c.bindingExtension.toList) (h0 : '\x00' ∉ c.bindingExtension.toList)
    (hnot : fs.isDirectory (bindingPath c a') = false) (hpath : bindingPath c a' = bindingPath c a) :
    d' ++ [targetName c n'] = d ++ [targetName c n] := by
  have hloc := locate_of_not_directory hfs hart hext h0 (hpath ▸ hnot)
  have hloc' := locate_of_not_directory hfs hart' hext h0 hnot
  rw [hpath] at hloc'
  rcases hloc with hloc | hloc <;> rcases hloc' with hloc' | hloc' <;>
    simp only [hloc, Except.ok.injEq, Spot.found.injEq, Spot.vacant.injEq, and_true,
      reduceCtorEq] at hloc' <;>
    exact hloc'.symm

theorem getLast?_filterMap {α β : Type} {f : α → Option β} {xs : List α}
    (h : ∀ x ∈ xs, (f x).isSome) : (xs.filterMap f).getLast? = xs.getLast?.bind f := by
  rcases List.eq_nil_or_concat xs with rfl | ⟨init, x, rfl⟩
  · rfl
  · obtain ⟨y, hy⟩ := Option.isSome_iff_exists.mp (h x (by simp))
    simp [List.filterMap_append, hy]

/-- The writes to the place of a binding path are those of the artifacts with this path. -/
theorem getLast?_writes (hfs : fs.IsPlainTree) (h : IsListing fs extension p l found)
    (hext : '/' ∉ c.bindingExtension.toList) (h0 : '\x00' ∉ c.bindingExtension.toList)
    (ha : a ∈ found) (hart : IsArtifact fs a d n) :
    (((writes fs (found.map (jobOf c fs))).filter fun w => w.1 = d ++ [targetName c n]).getLast?) =
      ((found.filter fun a' => (binding? c fs a').isSome &&
        bindingPath c a' = bindingPath c a).getLast?).bind
          fun a' => (binding? c fs a').map (d ++ [targetName c n], ·) := by
  have hpoint : ∀ a' ∈ found,
      ((jobOf c fs a').effect? fs).filter (fun w => w.1 = d ++ [targetName c n]) =
        if (binding? c fs a').isSome && bindingPath c a' = bindingPath c a then
          (binding? c fs a').map (d ++ [targetName c n], ·) else none := by
    intro a' ha'
    obtain ⟨d', n', hart', _⟩ := exists_isArtifact hfs h ha'
    rw [effect?_jobOf hfs hart' hext h0]
    cases hb : binding? c fs a' with
    | none => simp
    | some b =>
      have hnot : fs.isDirectory (bindingPath c a') = false :=
        not_directory_of_binding? (by simp [hb])
      by_cases hpath : bindingPath c a' = bindingPath c a
      · have hplace := target_congr hfs hart hart' hext h0 hnot hpath
        simp [hpath, hplace]
      · have hplace : d' ++ [targetName c n'] ≠ d ++ [targetName c n] := by
          intro he
          obtain ⟨hdir, hname⟩ := List.append_inj' he rfl
          subst hdir
          exact hpath (bindingPath_congr hfs h ha' ha hart' hart hext (List.cons.inj hname).1)
        simp [hpath, hplace]
  rw [writes, List.filterMap_map, List.filter_filterMap, ← getLast?_filterMap, List.filterMap_filter]
  · exact congrArg _ (List.filterMap_congr hpoint)
  · intro a' ha'
    have := (List.mem_filter.mp ha').2
    rw [Bool.and_eq_true] at this
    simpa using this.1

/-! ## The run over a listing -/

section Listing

variable (hfs : fs.IsPlainTree) (h : IsListing fs extension p l found)
  (hapart : AreApart extension c.bindingExtension)

include hfs h hapart

theorem entryAt?_run_listing (k : Location) :
    (run fs (found.map (jobOf c fs))).entryAt? k =
      (((writes fs (found.map (jobOf c fs))).filter fun w => w.1 = k).getLast?).elim (fs.entryAt? k)
        fun w => some (.file w.2) :=
  entryAt?_run_of_isSteady (isBatch_jobs (areArtifacts_of_isListing hfs h))
    (isSteady_jobs hfs h hapart) k

/-- **An artifact is still there after the run**: a job that writes there would have to bind to the name of
an artifact. -/
theorem entryAt?_run_artifact (ha : a ∈ found) (hart : IsArtifact fs a d n) :
    (run fs (found.map (jobOf c fs))).entryAt? (d ++ [n]) = fs.entryAt? (d ++ [n]) := by
  have hbatch := isBatch_jobs (c := c) (areArtifacts_of_isListing hfs h)
  obtain ⟨d₀, n₀, hart₀, hhas⟩ := exists_isArtifact hfs h ha
  have hplace := hart₀.denotes.unique hart.denotes
  have hn := (List.cons.inj (List.append_inj' hplace rfl).2).1
  subst hn
  rcases run_entry fs hbatch (d ++ [n₀]) with hsame | ⟨⟨is, j, ks, b, hsplit, he⟩, _⟩
  · exact hsame
  · exfalso
    have hj : j ∈ found.map (jobOf c fs) := by rw [hsplit]; simp
    obtain ⟨a', ha', rfl⟩ := List.mem_map.mp hj
    obtain ⟨d', n', hart', _⟩ := exists_isArtifact hfs h ha'
    have ht := (Job.effect?_eq_some_iff.mp he).1
    rw [hart'.jobOf_eq] at ht
    have hname := (List.append_inj' (target_jobAt c d' n' ht).1 rfl).2
    rw [(List.cons.inj hname).1] at hhas
    exact not_hasExtension_targetName hart'.text hapart hhas

variable (hext : '/' ∉ c.bindingExtension.toList) (h0 : '\x00' ∉ c.bindingExtension.toList)

include hext h0

/-- Every job of the run does what it would do at the start. -/
theorem isSome_effect?_turn {before after : List Path} (hsplit : found = before ++ a :: after) :
    ((jobOf c fs a).effect? (run fs (before.map (jobOf c fs)))).isSome = (binding? c fs a).isSome := by
  subst hsplit
  obtain ⟨d, n, hart, _⟩ := exists_isArtifact hfs h (a := a) (by simp)
  rw [(isSteady_jobs hfs h hapart).effect?_run (isBatch_jobs (areArtifacts_of_isListing hfs h))
    (List.map_subset _ (by simp)) (List.mem_map_of_mem (by simp)), effect?_jobOf hfs hart hext h0,
    Option.isSome_map]

/-- **What stands at the place of a binding** is the binding of the last artifact with its path. -/
theorem exists_binding_run (ha : a ∈ found) (hart : IsArtifact fs a d n)
    (hsome : (binding? c fs a).isSome) :
    ∃ a' b,
      (found.filter fun a' => (binding? c fs a').isSome &&
        bindingPath c a' = bindingPath c a).getLast? = some a' ∧
      binding? c fs a' = some b ∧
      (run fs (found.map (jobOf c fs))).entryAt? (d ++ [targetName c n]) = some (.file b) := by
  have hin : a ∈ found.filter fun a' => (binding? c fs a').isSome &&
      bindingPath c a' = bindingPath c a := by simp [ha, hsome]
  obtain ⟨a', ha'⟩ := Option.ne_none_iff_exists'.mp
    (mt List.getLast?_eq_none_iff.mp (List.ne_nil_of_mem hin))
  have hsome' := (List.mem_filter.mp (List.mem_of_getLast? ha')).2
  rw [Bool.and_eq_true] at hsome'
  obtain ⟨b, hb⟩ := Option.isSome_iff_exists.mp hsome'.1
  refine ⟨a', b, ha', hb, ?_⟩
  rw [entryAt?_run_listing hfs h hapart, getLast?_writes hfs h hext h0 ha hart, ha']
  simp [hb]

/-- After the run the path of a binding leads to its place. -/
theorem denotes_bindingPath_run (ha : a ∈ found) (hart : IsArtifact fs a d n)
    (hsome : (binding? c fs a).isSome) :
    (run fs (found.map (jobOf c fs))).Denotes (bindingPath c a) (d ++ [targetName c n]) := by
  obtain ⟨hplain, _, hkeep⟩ := (areArtifacts_of_isListing hfs h).run (c := c)
  obtain ⟨_, b, _, _, hfile⟩ := exists_binding_run hfs h hapart hext h0 ha hart hsome
  have hname := isName_targetName_of_binding? hfs hart hext h0 hsome
  rw [Denotes, locate_bindingPath hplain (hkeep a d n hart) hext hname.no_nul,
    stepOfPiece_of_isName hname, route_down_some hplain (by simp [hfile]), route_nil]

/-- **Where no path of a binding leads, nothing changes.** -/
theorem entryAt?_run_elsewhere {k : Location}
    (hk : ∀ a ∈ found, (binding? c fs a).isSome →
      ¬ (run fs (found.map (jobOf c fs))).Denotes (bindingPath c a) k) :
    (run fs (found.map (jobOf c fs))).entryAt? k = fs.entryAt? k := by
  have hnone : (writes fs (found.map (jobOf c fs))).filter (fun w => w.1 = k) = [] := by
    rw [List.filter_eq_nil_iff]
    intro w hw
    simp only [decide_eq_true_eq]
    rintro rfl
    obtain ⟨j, hj, he⟩ := List.mem_filterMap.mp hw
    obtain ⟨a, ha, rfl⟩ := List.mem_map.mp hj
    obtain ⟨d, n, hart, _⟩ := exists_isArtifact hfs h ha
    rw [effect?_jobOf hfs hart hext h0] at he
    obtain ⟨b, hb, rfl⟩ := Option.map_eq_some_iff.mp he
    have hsome : (binding? c fs a).isSome := by simp [hb]
    exact hk a ha hsome (denotes_bindingPath_run hfs h hapart hext h0 ha hart hsome)
  rw [entryAt?_run_listing hfs h hapart, hnone]
  rfl

end Listing

/-- **The effect of a run over a listing.** -/
theorem isBatchRun_bindAll {s : Session} (hfs : s.files.IsPlainTree)
    (h : IsListing s.files extension p l found) (hapart : AreApart extension c.bindingExtension)
    (hext : '/' ∉ c.bindingExtension.toList) (h0 : '\x00' ∉ c.bindingExtension.toList) :
    IsBatchRun c s.files (bindAll c s found).1.files found
      ⟨found.length, (bindAll c s found).2.1, (bindAll c s found).2.2⟩ := by
  have hart := areArtifacts_of_isListing hfs h
  obtain ⟨hplain, hgrows, _⟩ := hart.run (c := c)
  obtain ⟨hgenerated, hskipped⟩ := bindAll_paths hart hext fun before a after hsplit =>
    isSome_effect?_turn hfs h hapart hext h0 hsplit
  have hmem : ∀ q, q ∈ (bindAll c s found).2.1 ↔
      ∃ a ∈ found, (binding? c s.files a).isSome ∧ bindingPath c a = q := by
    intro q
    simp only [hgenerated, List.mem_map, List.mem_filter, and_assoc]
  rw [bindAll_files hart hext]
  refine ⟨rfl, hgenerated, ?_, ?_, ?_, ?_, ?_, workingDirectory_run _ _⟩
  · rw [hskipped]
    exact List.filter_congr fun a _ => Option.not_isSome _
  · intro a ha hsome
    obtain ⟨d, n, hartn, _⟩ := exists_isArtifact hfs h ha
    refine ⟨d, n, hartn.denotes, ?_⟩
    have hname : stem n ++ encode ("." ++ c.bindingExtension) = targetName c n := by
      rw [encode_append]; rfl
    rw [hname]
    exact denotes_bindingPath_run hfs h hapart hext h0 ha hartn hsome
  · intro q hq
    obtain ⟨a, ha, hsome, rfl⟩ := (hmem q).mp hq
    obtain ⟨d, n, hartn, _⟩ := exists_isArtifact hfs h ha
    have hdenotes := denotes_bindingPath_run hfs h hapart hext h0 ha hartn hsome
    obtain ⟨a', b, ha', hb, hfile⟩ := exists_binding_run hfs h hapart hext h0 ha hartn hsome
    refine ⟨a', b, ha', hb, ?_⟩
    rw [contentsAt_eq hplain hdenotes, bytesAt?, hfile]
    rfl
  · intro k hk
    exact entryAt?_run_elsewhere hfs h hapart hext h0 fun a ha hsome =>
      hk _ ((hmem _).mpr ⟨a, ha, hsome, rfl⟩)
  · intro a ha k hdenotes
    obtain ⟨d, n, hartn, _⟩ := exists_isArtifact hfs h ha
    have hk := hartn.denotes.unique hdenotes
    subst hk
    exact ⟨hartn.denotes.mono hfs hplain hgrows, entryAt?_run_artifact hfs h hapart ha hartn⟩

/-! ## Runs -/

variable {s : Session}

/-- After a compilation, a run binds what is found. -/
theorem generate_of_compiled (compiler : Compiler) {s₁ : Session}
    (hcompile : compiler.compile c.source c.artifacts (s.tell (.compiling c.source)) = (s₁, .ok ()))
    (hfound : findArtifacts s₁.files c.artifacts c.artifactExtension = .ok found) :
    ∃ s', s'.files = s₁.files ∧ (generate c compiler s).1.files = (bindAll c s' found).1.files ∧
      (generate c compiler s).2 =
        .ok ⟨found.length, (bindAll c s' found).2.1, (bindAll c s' found).2.2⟩ := by
  refine ⟨s₁.tell (.compiled c.artifacts), rfl, ?_⟩
  rw [generate, hcompile]
  simp only [Session.tell, hfound, bindFound, and_true]
  split <;> rfl

theorem generate_of_found (hdir : s.files.isDirectory c.artifacts = true)
    (hfound : findArtifacts s.files c.artifacts c.artifactExtension = .ok found) :
    ∃ s', s'.files = s.files ∧
      (generate c .precompiled s).1.files = (bindAll c s' found).1.files ∧
      (generate c .precompiled s).2 =
        .ok ⟨found.length, (bindAll c s' found).2.1, (bindAll c s' found).2.2⟩ := by
  have hsame : (s.tell (.compiling c.source)).files = s.files := rfl
  have hcompile : Compiler.precompiled.compile c.source c.artifacts (s.tell (.compiling c.source)) =
      (s.tell (.compiling c.source), .ok ()) := by
    rw [Compiler.compile, hsame, hdir]
    rfl
  obtain ⟨s', hs', hrun⟩ := generate_of_compiled .precompiled hcompile hfound
  exact ⟨s', hs', hrun⟩

theorem isBatchRun_nil (c : Config) (fs : FileSystem) : IsBatchRun c fs fs [] ⟨0, [], []⟩ := by
  constructor <;> simp

/--
**The exact effect of a batch run.**  In a tree without links, and with extensions that are apart, a run
over a directory of artifacts succeeds, and its effect can be said from the tree before it.
-/
theorem generate_precompiled (hfs : s.files.IsPlainTree)
    (hdir : s.files.isDirectory c.artifacts = true) (hplain : IsPlainExtension c.artifactExtension)
    (hapart : AreApart c.artifactExtension c.bindingExtension)
    (hext : '/' ∉ c.bindingExtension.toList) (h0 : '\x00' ∉ c.bindingExtension.toList) :
    ∃ found report,
      findArtifacts s.files c.artifacts c.artifactExtension = .ok found ∧
      (found.Pairwise fun p q => p.lt q = true) ∧
      (generate c .precompiled s).2 = .ok report ∧
      IsBatchRun c s.files (generate c .precompiled s).1.files found report := by
  rcases filesBelow_cases hfs hplain c.artifacts with ⟨_, hfound⟩ | ⟨p, l, found, _, hfound, hlisting⟩
  · obtain ⟨s', hs', hfiles, hreport⟩ := generate_of_found hdir hfound
    refine ⟨[], _, hfound, by simp, hreport, ?_⟩
    rw [hfiles, ← hs']
    exact isBatchRun_nil c s'.files
  · obtain ⟨s', hs', hfiles, hreport⟩ := generate_of_found hdir hfound
    refine ⟨found, _, hfound, hlisting.ordered.imp fun h => lt_iff.mpr h, hreport, ?_⟩
    rw [hfiles]
    rw [← hs'] at hfs hlisting ⊢
    exact isBatchRun_bindAll hfs hlisting hapart hext h0

/-- A working directory `w` with an artifact, and a file that only looks like one. -/
def sampleSession : Session where
  files :=
    ⟨[([encode "w"], .directory),
      ([encode "w", encode "T.json"], .file (encode "\x7b\"abi\": []\x7d")),
      ([encode "w", encode "U.json"], .file (encode "[]"))], [encode "w"]⟩
  searchPath := []

/-- The artifacts of the working directory, bound for the default dialect. -/
def sampleConfig : Config := { Config.ofSource Path.current with artifacts := Path.current }

theorem isPlainTree_sample : sampleSession.files.IsPlainTree := by decide +kernel

theorem isDirectory_sample : sampleSession.files.isDirectory Path.current = true :=
  isDirectory_iff.mpr ⟨_, denotes_current isPlainTree_sample, isPlainTree_sample.start⟩

theorem areApart_sample : AreApart sampleConfig.artifactExtension sampleConfig.bindingExtension := by
  refine ⟨by decide, fun s h => ?_, fun s h => ?_⟩ <;>
    · have hlast := congrArg (fun t : String => t.toList.getLast?) h
      simp [String.toList_append, sampleConfig, Config.ofSource, Config.defaultArtifactExtension,
        Binding.defaultExtension] at hlast

/-- The run over the sample. -/
theorem generate_precompiled_sample :
    ∃ found report,
      findArtifacts sampleSession.files sampleConfig.artifacts sampleConfig.artifactExtension =
        .ok found ∧
      (found.Pairwise fun p q => p.lt q = true) ∧
      (generate sampleConfig .precompiled sampleSession).2 = .ok report ∧
      IsBatchRun sampleConfig sampleSession.files
        (generate sampleConfig .precompiled sampleSession).1.files found report :=
  generate_precompiled isPlainTree_sample isDirectory_sample
    (by decide) areApart_sample (by decide) (by decide)

end ContractBindings.Generate
