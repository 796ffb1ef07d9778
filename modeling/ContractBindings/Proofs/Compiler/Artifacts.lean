import Mathlib
import ContractBindings.Proofs.Compiler.Course
import ContractBindings.Proofs.Compiler.Output
import ContractBindings.Proofs.FileSystem.Vacant
import ContractBindings.Proofs.FileSystem.Writes

/-!
# Artifacts of a compiler

What a compiler leaves behind, if the directory of the artifacts is new, and what is told about it.

* `writeArtifacts_eq`: the files and the notices after all contracts, by induction on those that are left, for
  any that were written before;
* `filled` is the tree with all artifacts: it holds that of the last contract of each name
  (`entryAt?_filled`);
* `compileWith_vacant`: with sources the directory is made and filled, also where links lead to it;
* `sources_of_sighted`, `sources_of_isBlind`: in a tree without links sources are found, unless the path of
  their directory is one that a search is blind to;
* `compileWith_sighted`, `compileWith_blind`: so the directory is made and filled there, or nothing is done.
-/

set_option autoImplicit false

namespace ContractBindings.Compiler

open Text ContractBindings.Path FileSystem Glob

/-! ## Names of artifacts -/

/-- A name that can name an artifact. -/
structure IsContractName (name : String) : Prop where
  ne_empty : name ≠ ""
  no_slash : '/' ∉ name.toList
  no_nul : '\x00' ∉ name.toList

instance (name : String) : Decidable (IsContractName name) :=
  decidable_of_iff (name ≠ "" ∧ '/' ∉ name.toList ∧ '\x00' ∉ name.toList)
    ⟨fun h => ⟨h.1, h.2.1, h.2.2⟩, fun h => ⟨h.ne_empty, h.no_slash, h.no_nul⟩⟩

/-- The name of the artifact of a contract. -/
def artifactName (name : String) : Name := encode (name ++ ".json")

theorem ne_of_length_lt {name other : String} (h : other.toList.length < 5) : name ++ ".json" ≠ other := by
  rintro rfl
  rw [String.toList_append, List.length_append] at h
  have hjson : ".json".toList.length = 5 := rfl
  omega

theorem isName_artifactName {name : String} (h : IsContractName name) : IsName (artifactName name) := by
  refine isName_encode_iff.mpr ⟨ne_of_length_lt (by decide), ne_of_length_lt (by decide),
    ne_of_length_lt (by decide), ?_, ?_⟩
  · rw [String.toList_append, List.mem_append, not_or]
    exact ⟨h.no_slash, by decide⟩
  · rw [String.toList_append, List.mem_append, not_or]
    exact ⟨h.no_nul, by decide⟩

theorem artifactName_injective : Function.Injective artifactName := by
  intro a b h
  have := congrArg String.toList (encode_injective h)
  rw [String.toList_append, String.toList_append] at this
  exact String.toList_injective (List.append_cancel_right this)

theorem hasExtension_artifactName (name : String) : HasExtension "json" (artifactName name) := by
  have htext : name ++ "." ++ "json" = name ++ ".json" := by
    rw [String.append_assoc]
    rfl
  exact ⟨name, by rw [htext, artifactName]⟩

/-- What is written for a contract in a directory. -/
def artifactWrite (d : Location) (c : CompiledContract) : Location × Bytes :=
  (d ++ [artifactName c.name], artifactBytes c)

variable {fs : FileSystem} {s : Session} {artifacts : Path} {d : Location}
  {contracts : List CompiledContract}

/-! ## Notices -/

/-- What is told about a contract: a warning if one before it has its name, and where its artifact is. -/
def noticesOf (artifacts : Path) (before : List CompiledContract) (c : CompiledContract) : List Notice :=
  (if c.name ∈ before.map CompiledContract.name then [.repeatedContract c.name c.source] else [])
    ++ [.wroteArtifact (artifactPath artifacts c.name)]

/-- What is told about contracts that are written one after another. -/
def allNotices (artifacts : Path) (contracts : List CompiledContract) : List Notice :=
  contracts.zipIdx.flatMap fun x => noticesOf artifacts (contracts.take x.2) x.1

def restNotices (artifacts : Path) (before rest : List CompiledContract) : List Notice :=
  (rest.zipIdx before.length).flatMap fun x => noticesOf artifacts ((before ++ rest).take x.2) x.1

theorem restNotices_cons (artifacts : Path) (before : List CompiledContract) (c : CompiledContract)
    (rest : List CompiledContract) :
    restNotices artifacts before (c :: rest) =
      noticesOf artifacts before c ++ restNotices artifacts (before ++ [c]) rest := by
  simp [restNotices, List.zipIdx_cons]

/-! ## Writing artifacts -/

/-- **All contracts are written, and what is told about each** depends on the names before it. -/
theorem writeArtifacts_eq (h : s.files.HoldsFiles artifacts d) {before rest : List CompiledContract}
    (hnames : ∀ c ∈ rest, IsContractName c.name) {written : List String}
    (hwritten : ∀ n, n ∈ written ↔ n ∈ before.map CompiledContract.name) :
    writeArtifacts artifacts s written rest =
      ({ s with
          files := s.files.makeWrites (rest.map (artifactWrite d))
          notices := s.notices ++ restNotices artifacts before rest }, .ok ()) := by
  induction rest generalizing s before written with
  | nil => simp [writeArtifacts, makeWrites, restNotices]
  | cons c rest ih =>
    obtain ⟨hname, hnames⟩ := List.forall_mem_cons.mp hnames
    have hn := isName_artifactName hname
    have hput : s.files.putFile (artifactPath artifacts c.name) (artifactBytes c) =
        .ok (s.files.makeWrite (artifactWrite d c)) := h.putFile_eq hn (artifactBytes c)
    have htold : (if written.contains c.name then s.tell (.repeatedContract c.name c.source) else s) =
        { s with notices := s.notices ++ if c.name ∈ before.map CompiledContract.name then
          [.repeatedContract c.name c.source] else [] } := by
      by_cases hmem : c.name ∈ before.map CompiledContract.name
      · simp [(hwritten c.name).mpr hmem, hmem, Session.tell]
      · simp [mt (hwritten c.name).mp hmem, hmem]
    have hmore : ∀ n, n ∈ c.name :: written ↔ n ∈ (before ++ [c]).map CompiledContract.name := by
      intro n
      rw [List.mem_cons, hwritten, List.map_append, List.mem_append, List.map_singleton, List.mem_singleton]
      exact or_comm
    rw [writeArtifacts]
    simp only [htold, Session.write, hput]
    rw [ih (h.set _ _) hnames hmore, restNotices_cons, noticesOf]
    simp [Session.tell, makeWrites_cons]

/-! ## The tree with the artifacts -/

/-- The contract that counts, of several with one name. -/
def lastNamed? (contracts : List CompiledContract) (name : String) : Option CompiledContract :=
  (contracts.filter fun c => c.name = name).getLast?

theorem lastNamed?_eq_some {name : String} {c : CompiledContract}
    (h : lastNamed? contracts name = some c) : c ∈ contracts ∧ c.name = name := by
  simpa using List.mem_filter.mp (List.mem_of_getLast? h)

theorem exists_lastNamed? {c : CompiledContract} (h : c ∈ contracts) :
    ∃ k, lastNamed? contracts c.name = some k := by
  have hmem : c ∈ contracts.filter fun k => k.name = c.name := by simp [h]
  exact Option.ne_none_iff_exists'.mp (mt List.getLast?_eq_none_iff.mp (List.ne_nil_of_mem hmem))

/-- The tree with a new directory that holds the artifacts of contracts. -/
def filled (fs : FileSystem) (d : Location) (contracts : List CompiledContract) : FileSystem :=
  (fs.set d .directory).makeWrites (contracts.map (artifactWrite d))

/-- A new directory that is filled holds nothing but files. -/
theorem holdsFiles_filled (hfs : fs.IsNested) (h : fs.IsVacant artifacts d)
    (contracts : List CompiledContract) : (filled fs d contracts).HoldsFiles artifacts d := by
  have hkept : ∀ {fs : FileSystem}, fs.HoldsFiles artifacts d →
      (fs.makeWrites (contracts.map (artifactWrite d))).HoldsFiles artifacts d := by
    induction contracts with
    | nil => exact id
    | cons c contracts ih => exact fun h => ih (h.set _ _)
  exact hkept (h.holdsFiles hfs)

theorem set_directory {l : Location} {n : Name} (hfs : fs.IsPlainTree) (hn : IsName n)
    (hd : fs.isDirectoryAt l = true) :
    (fs.set (l ++ [n]) .directory).IsPlainTree ∧ fs.Grows (fs.set (l ++ [n]) .directory) ∧
      (fs.set (l ++ [n]) .directory).isDirectoryAt (l ++ [n]) = true := by
  refine ⟨hfs.set hd hn (by simp) fun _ => rfl, Grows.set fun _ => rfl, ?_⟩
  rw [isDirectoryAt_iff, entryAt?_set (by simp), if_pos rfl]

section Filled

variable {l : Location} {n : Name} (hfs : fs.IsNested) (hvacant : fs.entryAt? (l ++ [n]) = none)
include hfs hvacant

/-- Nothing stands in a new directory. -/
theorem entryAt?_new {way : List Name} (h : way ≠ []) :
    (fs.set (l ++ [n]) .directory).entryAt? (l ++ [n] ++ way) = none := by
  rw [entryAt?_set (by simp), if_neg (by simp [h])]
  by_contra he
  exact entryAt?_of_append hfs he hvacant

theorem isWritable_artifact {c : CompiledContract} (hc : IsContractName c.name) :
    (fs.set (l ++ [n]) .directory).IsWritable (artifactWrite (l ++ [n]) c).1 := by
  refine ⟨⟨l ++ [n], _, rfl, ?_, isName_artifactName hc⟩, ?_⟩
  · rw [isDirectoryAt_iff, entryAt?_set (by simp), if_pos rfl]
  · rw [artifactWrite, isDirectoryAt, entryAt?_new hfs hvacant (by simp)]
    rfl

/-- **The directory holds the artifact of the last contract of each name**, and nothing else. -/
theorem entryAt?_filled {way : List Name} (h : way ≠ []) :
    (filled fs (l ++ [n]) contracts).entryAt? (l ++ [n] ++ way) =
      ((contracts.filter fun c => way = [artifactName c.name]).getLast?).map
        fun c => .file (artifactBytes c) := by
  have hsame : ∀ c : CompiledContract,
      (artifactWrite (l ++ [n]) c).1 = l ++ [n] ++ way ↔ way = [artifactName c.name] := by
    intro c
    rw [artifactWrite, List.append_cancel_left_eq]
    exact eq_comm
  rw [filled, entryAt?_makeWrites, entryAt?_new hfs hvacant h, List.filter_map, List.getLast?_map]
  · simp only [Function.comp_def, hsame]
    cases (contracts.filter fun c => way = [artifactName c.name]).getLast? <;> rfl
  · intro w hw
    obtain ⟨c, _, rfl⟩ := List.mem_map.mp hw
    simp [artifactWrite]

/-- **A name has the artifact of its last contract.** -/
theorem entryAt?_artifact (name : String) :
    (filled fs (l ++ [n]) contracts).entryAt? (l ++ [n] ++ [artifactName name]) =
      (lastNamed? contracts name).map fun c => .file (artifactBytes c) := by
  have hsame : ∀ c : CompiledContract, [artifactName name] = [artifactName c.name] ↔ c.name = name :=
    fun c => ⟨fun h => (artifactName_injective (List.cons.inj h).1).symm, fun h => by rw [h]⟩
  rw [entryAt?_filled hfs hvacant (by simp), lastNamed?]
  simp only [hsame]

theorem bytesAt?_filled (name : String) :
    (filled fs (l ++ [n]) contracts).bytesAt? (l ++ [n] ++ [artifactName name]) =
      (lastNamed? contracts name).map artifactBytes := by
  rw [bytesAt?, entryAt?_artifact hfs hvacant]
  cases lastNamed? contracts name <;> rfl

theorem bytesAt?_filled_isSome_iff {way : List Name} (h : way ≠ []) :
    ((filled fs (l ++ [n]) contracts).bytesAt? (l ++ [n] ++ way)).isSome ↔
      ∃ c ∈ contracts, way = [artifactName c.name] := by
  constructor
  · intro hb
    rw [bytesAt?, entryAt?_filled hfs hvacant h] at hb
    cases hlast : (contracts.filter fun c => way = [artifactName c.name]).getLast? with
    | none => simp [hlast] at hb
    | some c =>
      have hc := List.mem_filter.mp (List.mem_of_getLast? hlast)
      exact ⟨c, hc.1, by simpa using hc.2⟩
  · rintro ⟨c, hc, rfl⟩
    obtain ⟨k, hk⟩ := exists_lastNamed? hc
    rw [bytesAt?_filled hfs hvacant, hk]
    rfl

theorem isDirectoryAt_filled {way : List Name} (h : way ≠ []) :
    (filled fs (l ++ [n]) contracts).isDirectoryAt (l ++ [n] ++ way) = false := by
  rw [isDirectoryAt, entryAt?_filled hfs hvacant h]
  cases (contracts.filter fun c => way = [artifactName c.name]).getLast? <;> rfl

end Filled

theorem filled_plain {l : Location} {n : Name} (hfs : fs.IsPlainTree) (hvacant : fs.entryAt? (l ++ [n]) = none)
    (hn : IsName n) (hd : fs.isDirectoryAt l = true) (hnames : ∀ c ∈ contracts, IsContractName c.name) :
    (filled fs (l ++ [n]) contracts).IsPlainTree ∧ fs.Grows (filled fs (l ++ [n]) contracts) ∧
      (filled fs (l ++ [n]) contracts).isDirectoryAt (l ++ [n]) = true := by
  obtain ⟨hplain, hgrows, hnew⟩ := set_directory hfs hn hd
  obtain ⟨hfilled, hmore⟩ := makeWrites_plain hplain (contracts.map (artifactWrite (l ++ [n])))
    (by
      intro w hw
      obtain ⟨c, hc, rfl⟩ := List.mem_map.mp hw
      exact isWritable_artifact hfs.isNested hvacant (hnames c hc))
  exact ⟨hfilled, hgrows.trans hmore, hmore.directory _ hnew⟩

/-! ## Sources -/

/-- A directory with a source somewhere below it. -/
structure HoldsSource (fs : FileSystem) (source : Path) (l : Location) : Prop where
  denotes : fs.Denotes source l
  file : ∃ before n, HasExtension sourceExtension n ∧ (fs.bytesAt? (l ++ (before ++ [n]))).isSome

variable {l : Location} {text : String}

theorem isPlainExtension_source : IsPlainExtension sourceExtension := by decide

theorem HoldsSource.isDirectoryAt (hfs : fs.IsPlainTree) {source : Path}
    (h : HoldsSource fs source l) : fs.isDirectoryAt l = true := by
  obtain ⟨before, n, _, hb⟩ := h.file
  exact isDirectoryAt_of_append hfs.isNested (by simp) (entryAt?_of_bytesAt? hb)

/-- A blind search finds no sources. -/
theorem sources_of_isBlind (hfs : fs.IsPlainTree) (hne : text ≠ "") (h : IsBlind (Path.ofString text))
    (artifacts : Path) : sources fs (Path.ofString text) artifacts = .ok [] := by
  rw [sources, filesBelow_of_not_reached hfs isPlainExtension_source (reached?_of_isBlind hne h)]
  rfl

/-- **Otherwise sources are found**, and none of them is in a directory that does not exist. -/
theorem sources_of_sighted (hfs : fs.IsPlainTree) (h : HoldsSource fs (Path.ofString text) l)
    (hsight : ¬ IsBlind (Path.ofString text)) {n : Name} (hn : IsName n)
    (hvacant : fs.entryAt? (l ++ [n]) = none) :
    ∃ p ps, sources fs (Path.ofString text) ((Path.ofString text).join ⟨n⟩) = .ok (p :: ps) := by
  obtain ⟨q, hq, hden, hplace⟩ := reached?_ofString hfs h.denotes (h.isDirectoryAt hfs) hsight
  obtain ⟨found, hfound, hlisting⟩ := filesBelow_of_reached hfs isPlainExtension_source hq hden
  have hkept : found.filter (fun p => !p.startsWith ((Path.ofString text).join ⟨n⟩)) = found := by
    rw [List.filter_eq_self]
    intro p hp
    obtain ⟨before, m, rfl, _, hb⟩ := (hlisting.mem_iff p).mp hp
    have he := entryAt?_of_bytesAt? hb
    rw [Bool.not_eq_true', Bool.eq_false_iff]
    intro hbelow
    -- a path below the directory would lead through the name that is not there
    have hprefix := place_isPrefix hbelow
    rw [place_join h.denotes.ne_nil hn.no_separator, component?_of_isName hn,
      place_spell hfs hden he, hplace, List.prefix_append_right_inj] at hprefix
    obtain ⟨first, rest, hway⟩ := List.exists_cons_of_ne_nil (l := before ++ [m]) (by simp)
    rw [hway, List.map_cons] at hprefix
    have hfirst : n = first := by simpa using hprefix
    rw [hway, List.append_cons, ← hfirst] at he
    exact entryAt?_of_append hfs.isNested he hvacant
  obtain ⟨before, m, hext, hb⟩ := h.file
  have hmem := (hlisting.mem_iff _).mpr ⟨before, m, rfl, hext, hb⟩
  obtain ⟨p, ps, hps⟩ := List.exists_cons_of_ne_nil (List.ne_nil_of_mem hmem)
  refine ⟨p, ps, ?_⟩
  rw [sources, hfound, ← hps]
  exact congrArg _ hkept

/-! ## Calling the compiler -/

/--
A program that answers when it is asked for its version, ends well otherwise, and leaves behind an output
that holds these contracts.
-/
def Compiles (s : Session) (program : Path) (contracts : List CompiledContract) : Prop :=
  ∃ p, s.program? program = some p ∧ p.versionStatus = .code 0 ∧ p.outcome.status = .code 0 ∧
    contractsOf (decodeLossy p.outcome.stdout) = .ok contracts

variable {program source : Path}

/-- Without sources nothing is done. -/
theorem compileWith_nil (h : Compiles s program contracts)
    (hsources : sources s.files source artifacts = .ok []) :
    ∃ s', compileWith program source artifacts s = (s', .ok ()) ∧ s'.files = s.files := by
  obtain ⟨p, hp, hversion, _, _⟩ := h
  obtain ⟨started, hcourse⟩ := compileWith_course program hsources
  generalize compileWith program source artifacts s = out at hcourse ⊢
  obtain ⟨s', result⟩ := out
  cases hcourse with
  | missing hnone => simp [hp] at hnone
  | unanswered hp' hnot =>
    cases hp.symm.trans hp'
    exact absurd hversion hnot
  | idle => exact ⟨_, rfl, rfl⟩

/-- **What is printed is written**, after a compiler that answers was called on sources and ended well. -/
theorem compileWith_eq {solc : Program} (hsolc : s.program? program = some solc)
    (hversion : solc.versionStatus = .code 0) (hstatus : solc.outcome.status = .code 0) {q : Path}
    {qs : List Path} (hsources : sources s.files source artifacts = .ok (q :: qs)) :
    compileWith program source artifacts s =
      writeOutput artifacts
        { s with
          calls := s.calls ++ [[versionArgument]] ++ [arguments source (q :: qs)]
          notices := s.notices ++ [.startedCompiler (q :: qs).length program] }
        (decodeLossy solc.outcome.stdout) := by
  obtain ⟨started, hcourse⟩ := compileWith_course program hsources
  generalize compileWith program source artifacts s = out at hcourse ⊢
  obtain ⟨s', result⟩ := out
  cases hcourse with
  | missing hnone => simp [hsolc] at hnone
  | unanswered hp hnot =>
    cases hsolc.symm.trans hp
    exact absurd hversion hnot
  | failed hp _ hnot =>
    cases hsolc.symm.trans hp
    exact absurd hstatus hnot
  | used hp =>
    cases hsolc.symm.trans hp
    rfl

/-- **A new directory is made and filled**, and what is done is told. -/
theorem compileWith_vacant (hfs : s.files.IsNested) (hvacant : s.files.IsVacant artifacts d)
    (h : Compiles s program contracts) {q : Path} {qs : List Path}
    (hsources : sources s.files source artifacts = .ok (q :: qs))
    (hnames : ∀ c ∈ contracts, IsContractName c.name) :
    compileWith program source artifacts s =
      ({ s with
          files := filled s.files d contracts
          calls := s.calls ++ [[versionArgument]] ++ [arguments source (q :: qs)]
          notices := s.notices ++ .startedCompiler (q :: qs).length program :: allNotices artifacts contracts },
        .ok ()) := by
  obtain ⟨solc, hsolc, hversion, hstatus, hcontracts⟩ := h
  have hnobody : ∀ n, n ∈ ([] : List String) ↔ n ∈ ([] : List CompiledContract).map CompiledContract.name :=
    fun _ => Iff.rfl
  rw [compileWith_eq hsolc hversion hstatus hsources, writeOutput]
  simp only [hvacant.ensureDirectory_eq, hcontracts]
  rw [writeArtifacts_eq (hvacant.holdsFiles hfs) hnames hnobody]
  simp only [List.append_assoc, List.singleton_append]
  rfl

/-- **The directory of the artifacts is made and filled.** -/
theorem compileWith_sighted (hfs : s.files.IsPlainTree)
    (hsource : HoldsSource s.files (Path.ofString text) l) (hsight : ¬ IsBlind (Path.ofString text))
    {n : Name} (hn : IsName n) (hvacant : s.files.entryAt? (l ++ [n]) = none)
    (h : Compiles s program contracts) (hnames : ∀ c ∈ contracts, IsContractName c.name) :
    ∃ s', compileWith program (Path.ofString text) ((Path.ofString text).join ⟨n⟩) s = (s', .ok ()) ∧
      s'.files = filled s.files (l ++ [n]) contracts := by
  obtain ⟨p, ps, hsources⟩ := sources_of_sighted hfs hsource hsight hn hvacant
  have hplace := isVacant_join hsource.denotes (hsource.isDirectoryAt hfs) hn hvacant
  exact ⟨_, compileWith_vacant hfs.isNested hplace h hsources hnames, rfl⟩

/-- **A blind search ends the compilation** before the compiler is called. -/
theorem compileWith_blind (hfs : s.files.IsPlainTree) (hne : text ≠ "")
    (hblind : IsBlind (Path.ofString text)) (h : Compiles s program contracts) (artifacts : Path) :
    ∃ s', compileWith program (Path.ofString text) artifacts s = (s', .ok ()) ∧ s'.files = s.files :=
  compileWith_nil h (sources_of_isBlind hfs hne hblind artifacts)

end ContractBindings.Compiler
