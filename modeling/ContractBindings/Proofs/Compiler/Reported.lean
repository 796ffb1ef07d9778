import Mathlib
import ContractBindings.Proofs.Compiler.Failure

/-!
# What a compilation reports

A compilation into a new directory leaves one artifact for each name behind, and says what it does: that the
compiler was started, for each contract where its artifact is, and a warning before that if a contract of
this name was written already.

* `filter_allNotices`: the warnings among the notices, one for each contract whose name occurred before;
* `eq_of_last_warning`: the last warning about a name is about the contract that was kept;
* `run_artifact_iff`: an artifact is read back by every reader that goes deep enough;
* `compile_reported`: these together.
-/

set_option autoImplicit false

namespace ContractBindings.Compiler

open Text ContractBindings.Path FileSystem

variable {s : Session} {program source artifacts : Path} {l : Location} {name : String} {c : CompiledContract}
  {contracts : List CompiledContract}

/-! ## Warnings -/

/-- Whether a notice warns that a name is repeated. -/
def warnsAbout (name : String) : Notice → Bool
  | .repeatedContract other _ => other = name
  | _ => false

/-- The warnings about a name. -/
def warningsAbout (name : String) (notices : List Notice) : List Notice := notices.filter (warnsAbout name)

theorem allNotices_append_singleton (artifacts : Path) (contracts : List CompiledContract)
    (c : CompiledContract) :
    allNotices artifacts (contracts ++ [c]) =
      allNotices artifacts contracts ++ noticesOf artifacts contracts c := by
  have hfront : ∀ x ∈ contracts.zipIdx, (contracts ++ [c]).take x.2 = contracts.take x.2 := by
    intro x hx
    have hlt : x.2 < contracts.length := by simpa using List.snd_lt_of_mem_zipIdx hx
    exact List.take_append_of_le_length hlt.le
  rw [allNotices, List.zipIdx_append, List.flatMap_append, allNotices]
  congr 1
  · exact List.flatMap_congr fun x hx => by rw [hfront x hx]
  · simp

theorem lastNamed?_append_singleton (contracts : List CompiledContract) (c : CompiledContract)
    (name : String) :
    lastNamed? (contracts ++ [c]) name = if c.name = name then some c else lastNamed? contracts name := by
  rw [lastNamed?, List.filter_append]
  split
  · rename_i hname
    simp [hname]
  · rename_i hname
    simp [hname, lastNamed?]

theorem warningsAbout_noticesOf (name : String) (artifacts : Path) (before : List CompiledContract)
    (c : CompiledContract) : warningsAbout name (noticesOf artifacts before c) =
      if c.name = name ∧ name ∈ before.map CompiledContract.name then [.repeatedContract name c.source]
      else [] := by
  by_cases hname : c.name = name
  · subst hname
    by_cases hmem : c.name ∈ before.map CompiledContract.name
    · simp [warningsAbout, noticesOf, warnsAbout, hmem]
    · simp [warningsAbout, noticesOf, warnsAbout, hmem]
  · rw [if_neg (fun h => hname h.1), warningsAbout, List.filter_eq_nil_iff]
    intro w hw
    rcases List.mem_append.mp hw with hw | hw
    · split at hw
      · rw [List.mem_singleton.mp hw]
        simp [warnsAbout, hname]
      · cases hw
    · rw [List.mem_singleton.mp hw]
      exact Bool.false_ne_true

/-- **The last warning about a name is about the contract that was kept.** -/
theorem eq_of_last_warning {w : Notice}
    (h : (warningsAbout name (allNotices artifacts contracts)).getLast? = some w) :
    ∃ c, lastNamed? contracts name = some c ∧ w = .repeatedContract name c.source := by
  induction contracts using List.reverseRecOn generalizing w with
  | nil => cases h
  | append_singleton contracts c ih =>
    rw [allNotices_append_singleton, warningsAbout, List.filter_append, ← warningsAbout, ← warningsAbout,
      warningsAbout_noticesOf] at h
    rw [lastNamed?_append_singleton]
    by_cases hname : c.name = name
    · rw [if_pos hname]
      by_cases hmem : name ∈ contracts.map CompiledContract.name
      · rw [if_pos ⟨hname, hmem⟩, List.getLast?_append, List.getLast?_singleton, Option.some_or] at h
        exact ⟨c, rfl, (Option.some.inj h).symm⟩
      · -- without a contract of this name before there is no warning about it
        rw [if_neg (fun h => hmem h.2), List.append_nil] at h
        obtain ⟨k, hk, -⟩ := ih h
        obtain ⟨hmember, rfl⟩ := lastNamed?_eq_some hk
        exact absurd (List.mem_map_of_mem hmember) hmem
    · rw [if_neg (fun h => hname h.1), List.append_nil] at h
      rw [if_neg hname]
      exact ih h

/-- The contracts whose name occurred before, in order. -/
def repeatedContracts (contracts : List CompiledContract) : List CompiledContract :=
  (contracts.zipIdx.filter fun x => x.1.name ∈ (contracts.take x.2).map CompiledContract.name).map Prod.fst

/-- Whether a notice warns that some name is repeated. -/
def isRepetition : Notice → Bool
  | .repeatedContract _ _ => true
  | _ => false

/-- **There is one warning for each contract whose name occurred before**, in order. -/
theorem filter_allNotices (artifacts : Path) (contracts : List CompiledContract) :
    (allNotices artifacts contracts).filter isRepetition =
      (repeatedContracts contracts).map fun c => .repeatedContract c.name c.source := by
  rw [allNotices, repeatedContracts, List.filter_flatMap, List.map_map]
  generalize contracts.zipIdx = xs
  induction xs with
  | nil => rfl
  | cons x xs ih =>
    rw [List.flatMap_cons, ih]
    by_cases hmem : x.1.name ∈ (contracts.take x.2).map CompiledContract.name
    · rw [List.filter_cons_of_pos (by simpa using hmem), noticesOf, if_pos hmem]
      rfl
    · rw [List.filter_cons_of_neg (by simpa using hmem), noticesOf, if_neg hmem]
      rfl

/-! ## Reading artifacts back -/

theorem everywhere_artifact {P : Json → Prop} (hself : P c.artifact) (hstring : ∀ t, P (.string t))
    (habi : Json.Everywhere P (.array c.abi)) : Json.Everywhere P c.artifact := by
  have htext : ∀ t, Json.Everywhere P (.string t) := fun t =>
    Json.everywhere_scalar (by simp) (by simp) (hstring t)
  refine Json.everywhere_object_iff.mpr ⟨hself, ?_⟩
  simp only [List.forall_mem_cons, List.not_mem_nil, false_imp_iff, implies_true, and_true]
  exact ⟨htext _, htext _, habi, htext _⟩

/-- **An artifact is read back by the readers that go deep enough**, and no others. -/
theorem run_artifact_iff (hregular : Json.Everywhere Json.IsRegular (.array c.abi))
    (hreal : Json.Everywhere (fun v => ¬ Json.IsReal v) (.array c.abi)) (depth : Nat) :
    (Json.Reader.value ((Json.pretty "  " c.artifact).length + 1) depth).run (Json.pretty "  " c.artifact) =
      .ok c.artifact ↔ Json.Fits depth c.artifact := by
  constructor
  · exact fun h => Json.Reader.run_yields (Json.Reader.yields_fits _ _) h
  · intro hfits
    have hkeys : ["contractName", "sourceName", Abi.abiField, "bytecode"].Nodup := by decide
    exact Json.run_pretty isBlank_indent ⟨hfits, everywhere_artifact hkeys (fun _ => trivial) hregular,
      everywhere_artifact id (fun _ => id) hreal⟩

/-- A text that is read as the artifact of a contract, by the readers that go deep enough.  There are such
readers, and one that goes as deep as is usual is one of them if the artifact nests no deeper. -/
structure IsTextOf (text : String) (c : CompiledContract) : Prop where
  artifact : c.artifact = .object [("contractName", .string c.name), ("sourceName", .string c.source),
    ("abi", .array c.abi), ("bytecode", .string c.bytecode)]
  run : ∀ depth, (Json.Reader.value (text.length + 1) depth).run text = .ok c.artifact ↔
    Json.Fits depth c.artifact
  deep : ∃ depth, Json.Fits depth c.artifact
  parse : Json.parse text = .ok c.artifact ↔ Json.Fits Json.maxDepth c.artifact

theorem isTextOf_artifact (hregular : Json.Everywhere Json.IsRegular (.array c.abi))
    (hreal : Json.Everywhere (fun v => ¬ Json.IsReal v) (.array c.abi)) :
    IsTextOf (Json.pretty "  " c.artifact) c where
  artifact := rfl
  run := run_artifact_iff hregular hreal
  deep := ⟨_, Json.fits_of_sizeOf_le le_rfl⟩
  parse := run_artifact_iff hregular hreal Json.maxDepth

/-! ## A whole compilation -/

/-- What a compilation into a new directory leaves behind, and what is told about it. -/
structure IsReported (s s' : Session) (program artifacts : Path) (l : Location) (sources : Nat)
    (contracts : List CompiledContract) : Prop where
  denotes : s'.files.Denotes artifacts l
  directory : s'.files.isDirectoryAt l = true
  /-- Nothing stands in the directory but files with the names of contracts. -/
  only : ∀ way, way ≠ [] → s'.files.entryAt? (l ++ way) ≠ none →
    ∃ c ∈ contracts, way = [encode (c.name ++ ".json")]
  /-- Each name has a file, with the artifact of the last contract of this name. -/
  files : ∀ k ∈ contracts, ∃ c text, (contracts.filter fun c => c.name = k.name).getLast? = some c ∧
    s'.files.entryAt? (l ++ [encode (k.name ++ ".json")]) = some (.file (encode text)) ∧ IsTextOf text c
  notices : s'.notices =
    s.notices ++ .startedCompiler sources program :: allNotices artifacts contracts
  /-- There is one warning for each contract whose name occurred before, in order. -/
  warnings : (allNotices artifacts contracts).filter isRepetition =
    (repeatedContracts contracts).map fun c => .repeatedContract c.name c.source
  /-- The last warning about a name names the source of the contract that was kept. -/
  last : ∀ name w, (warningsAbout name (allNotices artifacts contracts)).getLast? = some w →
    ∃ c, (contracts.filter fun c => c.name = name).getLast? = some c ∧
      w = .repeatedContract name c.source

/-- **A compilation into a new directory** succeeds if all names can name artifacts, leaves the artifact of the
last contract of each name behind and nothing else, and warns of each contract whose name occurred before. -/
theorem compile_reported (hfs : s.files.IsNested) (hvacant : s.files.IsVacant artifacts l)
    (h : Compiles s program contracts) {q : Path} {qs : List Path}
    (hsources : sources s.files source artifacts = .ok (q :: qs))
    (hnames : ∀ c ∈ contracts, IsContractName c.name)
    (hreal : ∀ c ∈ contracts, Json.Everywhere (fun v => ¬ Json.IsReal v) (.array c.abi)) :
    ∃ s', compile (.solc program) source artifacts s = (s', .ok ()) ∧
      IsReported s s' program artifacts l (q :: qs).length contracts := by
  have hrun := compileWith_vacant hfs hvacant h hsources hnames
  have hkept := holdsFiles_filled hfs hvacant contracts
  obtain ⟨d, n, rfl, -⟩ := hvacant.exists_endsAt
  have hnone := hvacant.isFree.entryAt?_eq_none
  obtain ⟨solc, -, -, -, hcontracts⟩ := h
  refine ⟨_, hrun, hkept.denotes, hkept.directory, ?_, ?_, rfl, filter_allNotices artifacts contracts,
    fun name w => eq_of_last_warning⟩
  · intro way hway hthere
    obtain ⟨e, he⟩ := Option.ne_none_iff_exists'.mp hthere
    obtain ⟨c, hlast, -⟩ := Option.map_eq_some_iff.mp ((entryAt?_filled hfs hnone hway).symm.trans he)
    obtain ⟨hc, hsame⟩ := List.mem_filter.mp (List.mem_of_getLast? hlast)
    exact ⟨c, hc, of_decide_eq_true hsame⟩
  · intro k hk
    obtain ⟨c, hc⟩ := exists_lastNamed? hk
    obtain ⟨hmem, -⟩ := lastNamed?_eq_some hc
    have hentry := (entryAt?_artifact hfs hnone k.name).trans (congrArg _ hc)
    exact ⟨c, Json.pretty "  " c.artifact, hc, hentry,
      isTextOf_artifact (regular_of_contractsOf hcontracts hmem) (hreal c hmem)⟩

/-- The output of a compiler in which the name `T` is repeated. -/
def repeatingOutput : String :=
  "\x7b\"contracts\":\x7b\"A.sol:T\":\x7b\"abi\":[]\x7d,"
    ++ "\"A.sol:U\":\x7b\"abi\":[\x7b\"type\":\"receive\"\x7d],\"bin\":\"00\"\x7d,"
    ++ "\"B.sol:T\":\x7b\"abi\":[],\"bin\":\"01\"\x7d\x7d\x7d"

def repeatingContracts : List CompiledContract :=
  [⟨"T", "A.sol", [], "0x"⟩, ⟨"U", "A.sol", [.object [("type", .string "receive")]], "0x00"⟩,
    ⟨"T", "B.sol", [], "0x01"⟩]

theorem contractsOf_repeatingOutput : contractsOf repeatingOutput = .ok repeatingContracts := by cbv

theorem compiles_repeating :
    Compiles (compilerSession repeatingOutput []) (Path.ofString "./solc") repeatingContracts := by
  refine ⟨⟨.code 0, .code 0, encode repeatingOutput, []⟩, by decide +kernel, rfl, rfl, ?_⟩
  rw [decodeLossy_encode]
  exact contractsOf_repeatingOutput

theorem notReal_repeating : ∀ c ∈ repeatingContracts,
    Json.Everywhere (fun v => ¬ Json.IsReal v) (.array c.abi) := by
  simp only [repeatingContracts, List.forall_mem_cons, List.not_mem_nil, false_imp_iff, implies_true, and_true]
  simp only [Json.everywhere_array_iff, Json.everywhere_object_iff, List.forall_mem_cons, List.not_mem_nil,
    false_imp_iff, implies_true, and_true]
  exact ⟨id, ⟨id, id, Json.everywhere_scalar (by simp) (by simp) id⟩, id⟩

/-- The sample: of two contracts `T` the one in `B.sol` is kept. -/
theorem compile_reported_sample :
    ∃ s', compile (.solc (Path.ofString "./solc")) Path.current (Path.ofString "out")
        (compilerSession repeatingOutput []) = (s', .ok ()) ∧
      IsReported (compilerSession repeatingOutput []) s' (Path.ofString "./solc") (Path.ofString "out")
        [encode "w", encode "out"] 1 repeatingContracts :=
  have htree : (compilerSession repeatingOutput []).files.IsTree := by decide +kernel
  have hvacant : (compilerSession repeatingOutput []).files.IsVacant (Path.ofString "out")
      [encode "w", encode "out"] := ⟨false, by cbv⟩
  have hsources : sources (compilerSession repeatingOutput []).files Path.current (Path.ofString "out") =
      .ok [Path.ofString "T.sol"] := by decide +kernel
  compile_reported htree.isNested hvacant compiles_repeating hsources (by decide) notReal_repeating

end ContractBindings.Compiler
