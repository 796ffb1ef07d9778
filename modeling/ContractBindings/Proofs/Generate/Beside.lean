import ContractBindings.Generate
import ContractBindings.Proofs.Generate.Jobs
import ContractBindings.Proofs.Glob.Listing

/-!
# Bindings beside their artifacts

The binding of an artifact goes into the artifact's directory, under the stem of its name.

* `targetName`: the name of a binding; `bindingPath_eq` says that its path is the artifact's with this name;
* `putFile_bindingPath`: writing through that path sets the entry beside the artifact, unless a directory
  is there or the name cannot be one of an entry;
* `bind_spec`: so one artifact is one job (`jobAt`);
* `bindAll_cons_of_ok`, `bindAll_cons_of_error`: one artifact after another, each bound or skipped;
* `bindAll_files`, `bindAll_paths`: and a list of artifacts is a run, which accounts for each of them once.
-/

set_option autoImplicit false

namespace ContractBindings.Generate

open Text ContractBindings.Path FileSystem Glob

/-- The place of the binding of an artifact. -/
def bindingPath (c : Config) (artifact : Path) : Path :=
  artifact.withFileName (Path.ofString (bindingName c (contractName artifact)))

/-- The name of the binding of an artifact. -/
def targetName (c : Config) (n : Name) : Name := stem n ++ dot :: encode c.bindingExtension

/-- The bytes of the binding of an artifact with these bytes, if they are a document. -/
def makeBinding (c : Config) (n : Name) (b : Bytes) : Option Bytes :=
  (decode? b).bind fun text => (Abi.Document.ofText text).toOption.map fun d =>
    encode (bindingOf c (decodeLossy (stem n)) d).source

/-- What is done for the artifact at a location. -/
def jobAt (c : Config) (l : Location) : Job where
  source := l
  target :=
    if IsName (targetName c (l.getLast?.getD [])) then
      some (l.dropLast ++ [targetName c (l.getLast?.getD [])])
    else none
  make := makeBinding c (l.getLast?.getD [])

/-- The location that a path leads to. -/
def location? (fs : FileSystem) (p : Path) : Option Location :=
  match fs.locate true p with
  | .ok (.found l) => some l
  | _ => none

/-- What is done for an artifact. -/
def jobOf (c : Config) (fs : FileSystem) (a : Path) : Job := jobAt c ((location? fs a).getD [])

/-- A file whose name is text, and a path that leads to it. -/
structure IsArtifact (fs : FileSystem) (a : Path) (d : Location) (n : Name) : Prop
    extends IsFileIn fs a d n where
  text : ∃ t, n = encode t

variable {fs : FileSystem} {c : Config} {a : Path} {d : Location} {n : Name}

theorem jobAt_append (c : Config) (d : Location) (n : Name) :
    jobAt c (d ++ [n]) =
      ⟨d ++ [n], if IsName (targetName c n) then some (d ++ [targetName c n]) else none,
        makeBinding c n⟩ := by
  simp [jobAt]

theorem IsArtifact.jobOf_eq (h : IsArtifact fs a d n) : jobOf c fs a = jobAt c (d ++ [n]) := by
  have hl : location? fs a = some (d ++ [n]) := by
    have hd := h.denotes
    unfold Denotes at hd
    simp [location?, hd]
  rw [jobOf, hl, Option.getD_some]

/-! ## The place of a binding -/

theorem separator_not_mem_targetName (hn : IsName n) (hext : '/' ∉ c.bindingExtension.toList) :
    separator ∉ targetName c n := by
  have hstem : separator ∉ stem n := fun hm => hn.no_separator ((stem_isPrefix n).subset hm)
  have hexte : separator ∉ encode c.bindingExtension := by
    rw [mem_encode_iff (by decide)]; exact hext
  have hdot : separator ≠ dot := by decide
  simp [targetName, hstem, hexte, hdot]

theorem targetName_ne_nil (c : Config) (n : Name) : targetName c n ≠ [] := by simp [targetName]

/-- A binding can have its name unless the name is `..` or has a zero byte. -/
theorem isName_targetName_iff (hn : IsName n) (hext : '/' ∉ c.bindingExtension.toList) :
    IsName (targetName c n) ↔ targetName c n ≠ [dot, dot] ∧ (0 : UInt8) ∉ targetName c n := by
  refine ⟨fun h => ⟨h.ne_dots, h.no_nul⟩, fun h => ⟨targetName_ne_nil c n, ?_, h.1,
    separator_not_mem_targetName hn hext, h.2⟩⟩
  -- a stem is not empty, so something stands before the dot
  intro he
  have hlen := congrArg List.length he
  have hpos := List.length_pos_of_ne_nil (stem_ne_nil hn.ne_nil)
  simp [targetName] at hlen
  omega

theorem bindingName_eq (c : Config) (contract : String) :
    bindingName c contract = contract ++ "." ++ c.bindingExtension := rfl

/-- Whatever the document, its binding goes to the same place. -/
theorem withFileName_bindingOf (c : Config) (a : Path) (doc : Abi.Document) :
    a.withFileName (Path.ofString ((bindingOf c (contractName a) doc).fileName c.bindingExtension)) =
      bindingPath c a := rfl

theorem contractName_eq {ps : List Bytes} (hp : a.pieces = ps ++ [n]) (hn : IsName n) :
    contractName a = decodeLossy (stem n) := by
  simp [contractName, fileStem?, fileName?_of_pieces hp hn]

/-- **The path of a binding is the artifact's path with another name.** -/
theorem bindingPath_eq {ps : List Bytes} (hp : a.pieces = ps ++ [n]) (hn : IsName n)
    (ht : ∃ t, n = encode t) : bindingPath c a = a.withFileName ⟨targetName c n⟩ := by
  obtain ⟨t, rfl⟩ := ht
  obtain ⟨u, hu⟩ := stem_encode t
  have hname : encode (bindingName c (contractName a)) = targetName c (encode t) := by
    rw [contractName_eq hp hn, hu, decodeLossy_encode, bindingName_eq, encode_append, encode_append,
      targetName, hu, List.append_assoc]
    rfl
  rw [bindingPath, Path.ofString, hname]

theorem locate_bindingPath (hfs : fs.IsPlainTree) (ha : IsArtifact fs a d n)
    (hext : '/' ∉ c.bindingExtension.toList) (h0 : (0 : UInt8) ∉ targetName c n) :
    fs.locate true (bindingPath c a) = fs.route d [stepOfPiece (targetName c n)] := by
  obtain ⟨ps, hp⟩ := ha.pieces
  rw [bindingPath_eq hp ha.name ha.text]
  exact locate_withFileName hfs hp ha.name ha.denotes (separator_not_mem_targetName ha.name hext) h0
    (targetName_ne_nil c n) true

theorem directory_of_isArtifact (hfs : fs.IsPlainTree) (ha : IsArtifact fs a d n) :
    fs.isDirectoryAt d = true := hfs.above d n (ha.denotes.entryAt? hfs)

theorem denotes_up (hfs : fs.IsPlainTree) {l : Location} (hd : fs.isDirectoryAt l = true) :
    fs.route l [.up] = .ok (.found l.dropLast) ∧ fs.isDirectoryAt l.dropLast = true := by
  refine ⟨by rw [route_up, if_pos hd, route_nil], ?_⟩
  rcases List.eq_nil_or_concat l with rfl | ⟨init, m, rfl⟩
  · exact hd
  · rw [List.concat_eq_append] at hd ⊢
    rw [List.dropLast_concat]
    exact hfs.above init m (by rw [isDirectoryAt_iff.mp hd]; simp)

/-- **A binding is written beside its artifact**, unless its name or a directory forbids it. -/
theorem putFile_bindingPath (hfs : fs.IsPlainTree) (ha : IsArtifact fs a d n)
    (hext : '/' ∉ c.bindingExtension.toList) (b : Bytes) :
    if IsName (targetName c n) ∧ fs.isDirectoryAt (d ++ [targetName c n]) = false then
      fs.putFile (bindingPath c a) b = .ok (fs.set (d ++ [targetName c n]) (.file b))
    else ∃ e, fs.putFile (bindingPath c a) b = .error e := by
  have hd := directory_of_isArtifact hfs ha
  by_cases h0 : (0 : UInt8) ∈ targetName c n
  · rw [if_neg fun h => h.1.no_nul h0]
    obtain ⟨ps, hp⟩ := ha.pieces
    obtain ⟨kept, _, _, _, _, hw⟩ :=
      pieces_withFileName hp ha.name (separator_not_mem_targetName ha.name hext)
    have hmem : (0 : UInt8) ∈ (a.withFileName ⟨targetName c n⟩).bytes := by
      rw [mem_bytes_iff (by decide), hw]
      exact ⟨targetName c n, by simp, h0⟩
    refine ⟨.nulByte, ?_⟩
    rw [bindingPath_eq hp ha.name ha.text]
    simp [putFile, locate, hmem]
  · have hloc := locate_bindingPath hfs ha hext h0
    by_cases hdots : targetName c n = [dot, dot]
    · rw [if_neg fun h => h.1.ne_dots hdots]
      obtain ⟨hup, hdir⟩ := denotes_up hfs hd
      have hstep : stepOfPiece (targetName c n) = .up := by rw [hdots]; rfl
      refine ⟨.isDirectory, ?_⟩
      rw [hstep, hup] at hloc
      simp [putFile, hloc, hdir]
    · have hname := (isName_targetName_iff ha.name hext).mpr ⟨hdots, h0⟩
      rw [stepOfPiece_of_isName hname] at hloc
      rw [putFile_eq hfs hloc hd]
      cases hdir : fs.isDirectoryAt (d ++ [targetName c n]) with
      | true => simp
      | false => simp [hname]

/-! ## Bindings as jobs -/

/-- An artifact is loaded if it can be read, its bytes are text and the text is a document. -/
theorem toOption_loadArtifact (fs : FileSystem) (a : Path) :
    (loadArtifact fs a).toOption = (fs.contentsAt a).toOption.bind fun b =>
      (decode? b).bind fun text => (Abi.Document.ofText text).toOption := by
  unfold loadArtifact textAt
  cases fs.contentsAt a with
  | error e => rfl
  | ok b =>
    cases ht : decode? b with
    | none => simp [ht, Except.toOption]
    | some text =>
      simp only [Except.toOption, ht, Option.bind_some]
      cases Abi.Document.ofText text <;> rfl

theorem loadArtifact_eq (hfs : fs.IsPlainTree) (ha : IsArtifact fs a d n) {b : Bytes}
    (hb : fs.bytesAt? (d ++ [n]) = some b) :
    (loadArtifact fs a).toOption =
      (decode? b).bind fun text => (Abi.Document.ofText text).toOption := by
  rw [toOption_loadArtifact, contentsAt_eq hfs ha.denotes, hb]
  rfl

theorem bind_of_not_loaded {s : Session} {e : ArtifactError}
    (hl : loadArtifact s.files a = .error e) :
    (bind c s a).1.files = s.files ∧ (bind c s a).2 = .error e := by
  simp [bind, Session.tell, hl]

/-- What is told about a document does not change the files. -/
theorem bind_of_loaded {s : Session} {doc : Abi.Document} (hl : loadArtifact s.files a = .ok doc) :
    match s.files.putFile (bindingPath c a)
        (encode (bindingOf c (contractName a) doc).source) with
    | .ok files => (bind c s a).1.files = files ∧ (bind c s a).2 = .ok (bindingPath c a)
    | .error e => (bind c s a).1.files = s.files ∧ (bind c s a).2 = .error (.write e) := by
  unfold bind
  simp only [Session.tell, Session.tellAll, hl, Session.write, withFileName_bindingOf]
  cases s.files.putFile (bindingPath c a) (encode (bindingOf c (contractName a) doc).source) <;>
    exact ⟨rfl, rfl⟩

/-- Binding an artifact leaves the files alone, or writes the binding of the document it holds. -/
theorem bind_cases (c : Config) (s : Session) (a : Path) :
    (∃ e, (bind c s a).1.files = s.files ∧ (bind c s a).2 = .error e) ∨
      ∃ doc, loadArtifact s.files a = .ok doc ∧
        s.files.putFile (bindingPath c a) (encode (bindingOf c (contractName a) doc).source) =
          .ok (bind c s a).1.files ∧
        (bind c s a).2 = .ok (bindingPath c a) := by
  cases hl : loadArtifact s.files a with
  | error e => exact Or.inl ⟨e, bind_of_not_loaded hl⟩
  | ok doc =>
    have hbind := bind_of_loaded (c := c) hl
    cases hput : s.files.putFile (bindingPath c a)
        (encode (bindingOf c (contractName a) doc).source) with
    | error e =>
      simp only [hput] at hbind
      exact Or.inl ⟨_, hbind⟩
    | ok files =>
      simp only [hput] at hbind
      exact Or.inr ⟨doc, rfl, hbind.1 ▸ hput, hbind.2⟩

/-- The job of an artifact writes if the artifact can be loaded and the binding can be put in its
place. -/
theorem effect?_of_loadArtifact (hfs : fs.IsPlainTree) (ha : IsArtifact fs a d n) :
    (jobOf c fs a).effect? fs =
      if IsName (targetName c n) ∧ fs.isDirectoryAt (d ++ [targetName c n]) = false then
        (loadArtifact fs a).toOption.map fun doc =>
          (d ++ [targetName c n], encode (bindingOf c (contractName a) doc).source)
      else none := by
  obtain ⟨b, hb⟩ := Option.isSome_iff_exists.mp ha.file
  obtain ⟨ps, hp⟩ := ha.pieces
  rw [ha.jobOf_eq, jobAt_append, loadArtifact_eq hfs ha hb, contractName_eq hp ha.name]
  unfold Job.effect?
  simp only [hb, Option.bind_some, makeBinding]
  by_cases hname : IsName (targetName c n)
  · cases hdir : fs.isDirectoryAt (d ++ [targetName c n]) with
    | true => simp [hname, hdir]
    | false => cases decode? b <;> simp [hname, hdir, Option.map_map, Function.comp_def]
  · simp [hname]

/-- **Binding an artifact is doing its job**: the files are those after the job, and the path of the
binding comes back if the job has an effect. -/
theorem bind_spec {s : Session} (hfs : s.files.IsPlainTree) (ha : IsArtifact s.files a d n)
    (hext : '/' ∉ c.bindingExtension.toList) :
    (bind c s a).1.files = runJob s.files (jobOf c s.files a) ∧
      if ((jobOf c s.files a).effect? s.files).isSome then (bind c s a).2 = .ok (bindingPath c a)
      else ∃ e, (bind c s a).2 = .error e := by
  unfold runJob
  rw [effect?_of_loadArtifact hfs ha]
  cases hl : loadArtifact s.files a with
  | error e =>
    obtain ⟨hfiles, hresult⟩ := bind_of_not_loaded (c := c) hl
    simp [Except.toOption, hfiles, hresult]
  | ok doc =>
    have hbind := bind_of_loaded (c := c) hl
    have hput := putFile_bindingPath hfs ha hext (encode (bindingOf c (contractName a) doc).source)
    by_cases hfree : IsName (targetName c n) ∧ s.files.isDirectoryAt (d ++ [targetName c n]) = false
    · rw [if_pos hfree] at hput ⊢
      rw [hput] at hbind
      exact hbind
    · rw [if_neg hfree] at hput ⊢
      obtain ⟨e, he⟩ := hput
      rw [he] at hbind
      exact ⟨hbind.1, _, hbind.2⟩

/-! ## Runs -/

theorem target_jobAt (c : Config) (d : Location) (n : Name) {l : Location}
    (h : (jobAt c (d ++ [n])).target = some l) :
    l = d ++ [targetName c n] ∧ IsName (targetName c n) := by
  rw [jobAt_append] at h
  split at h
  · rename_i hname; cases h; exact ⟨rfl, hname⟩
  · cases h

theorem runJob_plain (hfs : fs.IsPlainTree) (ha : IsArtifact fs a d n) :
    (runJob fs (jobOf c fs a)).IsPlainTree ∧ fs.Grows (runJob fs (jobOf c fs a)) := by
  rcases runJob_cases fs (jobOf c fs a) with ⟨_, hr⟩ | ⟨l, b, _, ht, hdir, hr⟩
  · rw [hr]
    exact ⟨hfs, Grows.refl fs⟩
  · rw [ha.jobOf_eq] at ht
    obtain ⟨rfl, hname⟩ := target_jobAt c d n ht
    have hnot : fs.isDirectoryAt (d ++ [targetName c n]) = true → Entry.file b = .directory := by
      simp [hdir]
    rw [hr]
    exact ⟨hfs.set (directory_of_isArtifact hfs ha) hname (by simp) hnot, Grows.set hnot⟩

theorem bytesAt?_runJob {j : Job} {l : Location} (hj : j.target ≠ some [])
    (h : (fs.bytesAt? l).isSome) : ((runJob fs j).bytesAt? l).isSome := by
  rcases runJob_cases fs j with ⟨_, hr⟩ | ⟨k, b, _, ht, _, hr⟩
  · rw [hr]; exact h
  · have hk : k ≠ [] := fun e => hj (e ▸ ht)
    rw [hr]
    by_cases hl : l = k
    · simp [bytesAt?, entryAt?_set hk, hl]
    · simpa only [bytesAt?, entryAt?_set hk, if_neg hl] using h

theorem target_jobAt_ne_nil (c : Config) (d : Location) (n : Name) :
    (jobAt c (d ++ [n])).target ≠ some [] := by
  intro h
  have := (target_jobAt c d n h).1
  simp at this

/-- An artifact stays one, and so does its job. -/
theorem IsArtifact.runJob (hfs : fs.IsPlainTree) (ha : IsArtifact fs a d n) {a' : Path} {d' : Location}
    {n' : Name} (ha' : IsArtifact fs a' d' n') :
    IsArtifact (Generate.runJob fs (jobOf c fs a)) a' d' n' := by
  obtain ⟨hplain, hgrows⟩ := runJob_plain (c := c) hfs ha
  refine ⟨⟨ha'.pieces, ha'.denotes.mono hfs hplain hgrows, ha'.name, bytesAt?_runJob ?_ ha'.file⟩,
    ha'.text⟩
  rw [ha.jobOf_eq]
  exact target_jobAt_ne_nil c d n

/-- The artifacts of a list are files in a tree without links. -/
structure AreArtifacts (fs : FileSystem) (as : List Path) : Prop where
  plain : fs.IsPlainTree
  artifact : ∀ a ∈ as, ∃ d n, IsArtifact fs a d n

theorem AreArtifacts.step {as : List Path} (h : AreArtifacts fs (a :: as)) :
    AreArtifacts (Generate.runJob fs (jobOf c fs a)) as ∧
      ∀ a' ∈ as, jobOf c (Generate.runJob fs (jobOf c fs a)) a' = jobOf c fs a' := by
  obtain ⟨d, n, ha⟩ := h.artifact a (by simp)
  refine ⟨⟨(runJob_plain h.plain ha).1, fun a' ha' => ?_⟩, fun a' ha' => ?_⟩
  · obtain ⟨d', n', hart⟩ := h.artifact a' (List.mem_cons_of_mem _ ha')
    exact ⟨d', n', ha.runJob h.plain hart⟩
  · obtain ⟨d', n', hart⟩ := h.artifact a' (List.mem_cons_of_mem _ ha')
    rw [(ha.runJob h.plain hart).jobOf_eq, hart.jobOf_eq]

/-- A whole run leaves a tree without links that has only grown, and all artifacts. -/
theorem AreArtifacts.run {as : List Path} (h : AreArtifacts fs as) :
    (Generate.run fs (as.map (jobOf c fs))).IsPlainTree ∧
      fs.Grows (Generate.run fs (as.map (jobOf c fs))) ∧
      ∀ a d n, IsArtifact fs a d n → IsArtifact (Generate.run fs (as.map (jobOf c fs))) a d n := by
  induction as generalizing fs with
  | nil => exact ⟨h.plain, Grows.refl fs, fun _ _ _ ha => ha⟩
  | cons a as ih =>
    obtain ⟨d, n, ha⟩ := h.artifact a (by simp)
    obtain ⟨hnext, hjobs⟩ := h.step (c := c)
    obtain ⟨hplain, hgrows, hkeep⟩ := ih hnext
    rw [List.map_congr_left hjobs] at hplain hgrows hkeep
    exact ⟨hplain, (runJob_plain h.plain ha).2.trans hgrows,
      fun a' d' n' ha' => hkeep a' d' n' (ha.runJob h.plain ha')⟩

/-- One step: an artifact whose binding is written is reported, and the others follow. -/
theorem bindAll_cons_of_ok {s : Session} {path : Path} (h : (bind c s a).2 = .ok path) (as : List Path) :
    bindAll c s (a :: as) =
      ((bindAll c (bind c s a).1 as).1, path :: (bindAll c (bind c s a).1 as).2.1,
        (bindAll c (bind c s a).1 as).2.2) := by
  rw [bindAll]
  cases hb : bind c s a with
  | mk s' result =>
    rw [hb] at h
    cases h
    rfl

/-- One step: an artifact without a binding is told to be skipped, and the others follow. -/
theorem bindAll_cons_of_error {s : Session} {e : ArtifactError} (h : (bind c s a).2 = .error e)
    (as : List Path) :
    bindAll c s (a :: as) =
      ((bindAll c ((bind c s a).1.tell (.skipped a e.message)) as).1,
        (bindAll c ((bind c s a).1.tell (.skipped a e.message)) as).2.1,
        ⟨a, e⟩ :: (bindAll c ((bind c s a).1.tell (.skipped a e.message)) as).2.2) := by
  rw [bindAll]
  cases hb : bind c s a with
  | mk s' result =>
    rw [hb] at h
    cases h
    rfl

/-- Whether an artifact is bound or skipped, the others start with the files and the calls it leaves. -/
theorem bindAll_cons (c : Config) (s : Session) (a : Path) (as : List Path) :
    ∃ s', s'.files = (bind c s a).1.files ∧ s'.calls = (bind c s a).1.calls ∧
      (bindAll c s (a :: as)).1 = (bindAll c s' as).1 := by
  cases h : (bind c s a).2 with
  | ok path => exact ⟨(bind c s a).1, rfl, rfl, by rw [bindAll_cons_of_ok h]⟩
  | error e =>
    exact ⟨(bind c s a).1.tell (.skipped a e.message), rfl, rfl, by rw [bindAll_cons_of_error h]⟩

/-- An artifact that can be read, and whose binding can be written, is reported first. -/
theorem generated_cons {s : Session} {doc : Abi.Document} {fs' : FileSystem} (as : List Path)
    (hload : loadArtifact s.files a = .ok doc)
    (hput : s.files.putFile (bindingPath c a) (encode (bindingOf c (contractName a) doc).source) =
      .ok fs') :
    ∃ s₁ : Session, s₁.files = fs' ∧
      (bindAll c s (a :: as)).2.1 = bindingPath c a :: (bindAll c s₁ as).2.1 := by
  have hbind := bind_of_loaded (c := c) hload
  simp only [hput] at hbind
  exact ⟨_, hbind.1, by rw [bindAll_cons_of_ok hbind.2]⟩

/-- **The files after a list of artifacts are those after the run of their jobs.** -/
theorem bindAll_files {as : List Path} {s : Session} (h : AreArtifacts s.files as)
    (hext : '/' ∉ c.bindingExtension.toList) :
    (bindAll c s as).1.files = Generate.run s.files (as.map (jobOf c s.files)) := by
  induction as generalizing s with
  | nil => rfl
  | cons a as ih =>
    obtain ⟨d, n, ha⟩ := h.artifact a (by simp)
    obtain ⟨hfiles, _⟩ := bind_spec h.plain ha hext
    obtain ⟨hnext, hjobs⟩ := h.step (c := c)
    obtain ⟨s', hs', _, hrest⟩ := bindAll_cons c s a as
    rw [List.map_cons, run_cons, ← List.map_congr_left hjobs, hrest, ← hfiles, ← hs']
    rw [← hfiles, ← hs'] at hnext
    exact ih hnext

/-- **Every artifact is accounted for once**: as generated if its job has an effect when its turn comes,
as skipped otherwise, and in order. -/
theorem bindAll_paths {as : List Path} {s : Session} (h : AreArtifacts s.files as)
    (hext : '/' ∉ c.bindingExtension.toList) {ok : Path → Bool}
    (hok : ∀ before a after, as = before ++ a :: after →
      ((jobOf c s.files a).effect?
        (Generate.run s.files (before.map (jobOf c s.files)))).isSome = ok a) :
    (bindAll c s as).2.1 = (as.filter ok).map (bindingPath c) ∧
      (bindAll c s as).2.2.map Skipped.path = as.filter fun a => !ok a := by
  induction as generalizing s with
  | nil => exact ⟨rfl, rfl⟩
  | cons a as ih =>
    obtain ⟨d, n, ha⟩ := h.artifact a (by simp)
    obtain ⟨hfiles, hresult⟩ := bind_spec h.plain ha hext
    obtain ⟨hnext, hjobs⟩ := h.step (c := c)
    have hfirst := hok [] a as rfl
    rw [List.map_nil, run_nil] at hfirst
    rw [hfirst] at hresult
    have hrest : ∀ before a' after, as = before ++ a' :: after →
        ((jobOf c (bind c s a).1.files a').effect? (Generate.run (bind c s a).1.files
          (before.map (jobOf c (bind c s a).1.files)))).isSome = ok a' := by
      rintro before a' after rfl
      rw [hfiles, hjobs a' (by simp),
        List.map_congr_left fun x hx => hjobs x (List.mem_append_left _ hx), ← run_cons,
        ← List.map_cons]
      exact hok (a :: before) a' after rfl
    rw [← hfiles] at hnext
    cases hoka : ok a with
    | true =>
      rw [hoka, if_pos rfl] at hresult
      obtain ⟨hg, hs⟩ := ih hnext hrest
      rw [bindAll_cons_of_ok hresult]
      simp [hoka, hg, hs]
    | false =>
      rw [hoka, if_neg Bool.false_ne_true] at hresult
      obtain ⟨e, hresult⟩ := hresult
      obtain ⟨hg, hs⟩ := ih (s := (bind c s a).1.tell (.skipped a e.message)) hnext hrest
      rw [bindAll_cons_of_error hresult]
      simp [hoka, hg, hs]

end ContractBindings.Generate
