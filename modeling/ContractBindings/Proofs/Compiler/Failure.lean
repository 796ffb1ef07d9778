import ContractBindings.Proofs.Compiler.Artifacts
import ContractBindings.Proofs.FileSystem.Effects

/-!
# Compilations that fail

A compiler that is missing, does not answer or ends with an error leaves the files alone.  But the
directory of the artifacts is made before the output is read, and artifacts are written before it is known
whether the next one can be; so a failure may leave something behind.

* `compileWith_cases`: either the output is never used, and no file changes, or it is written;
* `writeOutput_cases`: the contracts are all written, or those before the first one that cannot be;
* `compile_failed`: what a failed compilation leaves behind, in any tree and for any compiler, and when
  that is nothing;
* `not_isAtomic_of_unreadable`: an output that cannot be read leaves a directory behind.
-/

set_option autoImplicit false

namespace ContractBindings.Compiler

open Text ContractBindings.Path FileSystem

variable {s s' : Session} {program source artifacts : Path} {stdout : String}
  {contracts written : List CompiledContract} {e : CompileError}

/-! ## Before the output is used -/

/-- What the compiler printed, if it answers, is called on sources and ends well. -/
def usedOutput? (program source artifacts : Path) (s : Session) : Option String :=
  match s.program? program, sources s.files source artifacts with
  | some p, .ok (_ :: _) =>
    if p.versionStatus.isSuccess && p.outcome.status.isSuccess then some (decodeLossy p.outcome.stdout)
    else none
  | _, _ => none

/-- **Files change only where output is used**: it is written, or nothing is. -/
theorem compileWith_cases (program source artifacts : Path) (s : Session) :
    usedOutput? program source artifacts s = none ∧
        (compileWith program source artifacts s).1.files = s.files ∨
      ∃ stdout s₁, usedOutput? program source artifacts s = some stdout ∧ s₁.files = s.files ∧
        compileWith program source artifacts s = writeOutput artifacts s₁ stdout := by
  obtain ⟨paths, hsources, _⟩ := exists_sorted_sources s.files source artifacts
  obtain ⟨started, hcourse⟩ := compileWith_course program hsources
  generalize compileWith program source artifacts s = out at hcourse ⊢
  obtain ⟨s', result⟩ := out
  unfold usedOutput?
  rw [hsources]
  cases hcourse with
  | missing hprogram => exact .inl ⟨by simp [hprogram], rfl⟩
  | unanswered hprogram hversion =>
    refine .inl ⟨?_, rfl⟩
    cases paths <;> simp [hprogram, isSuccess_iff, hversion]
  | idle hprogram _ => exact .inl ⟨by simp [hprogram], rfl⟩
  | failed hprogram _ hstatus => exact .inl ⟨by simp [hprogram, isSuccess_iff, hstatus], rfl⟩
  | @used p q qs hprogram hversion hstatus =>
    exact .inr ⟨decodeLossy p.outcome.stdout, compiled program source (q :: qs) s,
      by simp [hprogram, isSuccess_iff, hversion, hstatus], rfl, rfl⟩

/-! ## Writing the output -/

/-- Contracts were written as artifacts, one after another. -/
abbrev WrittenArtifacts (artifacts : Path) (fs fs' : FileSystem) (contracts : List CompiledContract) :
    Prop :=
  Written (fun c => artifactPath artifacts c.name) artifactBytes fs fs' contracts

/-- One step: the artifact of a contract is written before those of the others, or ends it.  What is told
about a repeated name changes no file and calls nothing. -/
theorem writeArtifacts_cons (artifacts : Path) (s : Session) (seen : List String) (c : CompiledContract)
    (rest : List CompiledContract) :
    ∃ s₁ : Session, s₁.files = s.files ∧ s₁.calls = s.calls ∧
      writeArtifacts artifacts s seen (c :: rest) =
        match s.files.putFile (artifactPath artifacts c.name) (artifactBytes c) with
        | .error io => (s₁, .error (.io io))
        | .ok files =>
          writeArtifacts artifacts
            (({ s₁ with files } : Session).tell (.wroteArtifact (artifactPath artifacts c.name)))
            (c.name :: seen) rest := by
  obtain ⟨s₁, hfiles, hcalls, htold⟩ : ∃ s₁ : Session, s₁.files = s.files ∧ s₁.calls = s.calls ∧
      (if seen.contains c.name then s.tell (.repeatedContract c.name c.source) else s) = s₁ := by
    split
    · exact ⟨s.tell _, rfl, rfl, rfl⟩
    · exact ⟨s, rfl, rfl, rfl⟩
  refine ⟨s₁, hfiles, hcalls, ?_⟩
  rw [writeArtifacts]
  simp only [htold, Session.write, hfiles]
  cases s.files.putFile (artifactPath artifacts c.name) (artifactBytes c) <;> rfl

/-- **Either all contracts are written, or those before the first one** that cannot be. -/
theorem writeArtifacts_cases (hfs : s.files.IsNested) (artifacts : Path)
    (contracts : List CompiledContract) (seen : List String) :
    (writeArtifacts artifacts s seen contracts).2 = .ok () ∧
        WrittenArtifacts artifacts s.files (writeArtifacts artifacts s seen contracts).1.files contracts ∨
      ∃ written c rest io, contracts = written ++ c :: rest ∧
        (writeArtifacts artifacts s seen contracts).2 = .error (.io io) ∧
        (writeArtifacts artifacts s seen contracts).1.files.putFile (artifactPath artifacts c.name)
          (artifactBytes c) = .error io ∧
        WrittenArtifacts artifacts s.files (writeArtifacts artifacts s seen contracts).1.files written := by
  induction contracts generalizing s seen with
  | nil => exact .inl ⟨rfl, Written.nil hfs⟩
  | cons c rest ih =>
    obtain ⟨s₁, hs₁, _, hstep⟩ := writeArtifacts_cons artifacts s seen c rest
    rw [hstep]
    cases hput : s.files.putFile (artifactPath artifacts c.name) (artifactBytes c) with
    | error io =>
      exact .inr ⟨[], c, rest, io, rfl, rfl, by rw [hs₁, hput], by rw [hs₁]; exact Written.nil hfs⟩
    | ok files =>
      obtain ⟨_, _, _, _, hnested, _⟩ := putFile_spec hfs hput
      rcases ih (s := ({ s₁ with files } : Session).tell (.wroteArtifact (artifactPath artifacts c.name)))
        hnested (c.name :: seen) with ⟨hok, hwritten⟩ | ⟨written, c', rest', io, rfl, he, hfail, hwritten⟩
      · exact .inl ⟨hok, hwritten.cons hfs hput⟩
      · exact .inr ⟨c :: written, c', rest', io, rfl, he, hfail, hwritten.cons hfs hput⟩

/-- Where a compilation stops whose output is used, and the contracts whose artifacts were written before. -/
inductive StopsAt (artifacts : Path) (stdout : String) (before after : FileSystem) :
    CompileError → List CompiledContract → Prop where
  /-- The directory of the artifacts cannot be made. -/
  | directory {io : IoError} (h : (before.ensureDirectory artifacts).2 = .error io) :
    StopsAt artifacts stdout before after (.io io) []
  /-- The output cannot be read. -/
  | output {error : Json.ReadError} (hmade : (before.ensureDirectory artifacts).2 = .ok ())
    (h : contractsOf stdout = .error error) : StopsAt artifacts stdout before after (.output error) []
  /-- An artifact cannot be written. -/
  | artifact {io : IoError} {written : List CompiledContract} {c : CompiledContract}
    {rest : List CompiledContract} (hmade : (before.ensureDirectory artifacts).2 = .ok ())
    (h : contractsOf stdout = .ok (written ++ c :: rest))
    (hfail : after.putFile (artifactPath artifacts c.name) (artifactBytes c) = .error io) :
    StopsAt artifacts stdout before after (.io io) written

/-- **Output is written as a whole, or up to where it stops.** -/
theorem writeOutput_cases (hfs : s.files.IsNested) (artifacts : Path) (stdout : String) :
    (writeOutput artifacts s stdout).2 = .ok () ∧ (∃ contracts, contractsOf stdout = .ok contracts ∧
        WrittenArtifacts artifacts (s.files.ensureDirectory artifacts).1
          (writeOutput artifacts s stdout).1.files contracts) ∨
      ∃ e written, (writeOutput artifacts s stdout).2 = .error e ∧
        StopsAt artifacts stdout s.files (writeOutput artifacts s stdout).1.files e written ∧
        WrittenArtifacts artifacts (s.files.ensureDirectory artifacts).1
          (writeOutput artifacts s stdout).1.files written := by
  have hnested := (makesDirectories_ensureDirectory s.files artifacts).isNested hfs
  unfold writeOutput
  cases hmade : s.files.ensureDirectory artifacts with
  | mk files result =>
    simp only [hmade] at hnested ⊢
    cases result with
    | error io => exact .inr ⟨_, [], rfl, .directory (by rw [hmade]), Written.nil hnested⟩
    | ok _ =>
      cases hread : contractsOf stdout with
      | error error => exact .inr ⟨_, [], rfl, .output (by rw [hmade]) hread, Written.nil hnested⟩
      | ok contracts =>
        have hcases := writeArtifacts_cases (s := { s with files }) hnested artifacts contracts []
        rcases hcases with ⟨hok, hwritten⟩ | ⟨written, c, rest, io, rfl, herror, hfail, hwritten⟩
        · exact .inl ⟨hok, contracts, rfl, hwritten⟩
        · exact .inr ⟨_, written, herror, .artifact (by rw [hmade]) hread hfail, hwritten⟩

theorem writeOutput_error (hfs : s.files.IsNested) (h : (writeOutput artifacts s stdout).2 = .error e) :
    ∃ written, StopsAt artifacts stdout s.files (writeOutput artifacts s stdout).1.files e written ∧
      WrittenArtifacts artifacts (s.files.ensureDirectory artifacts).1
        (writeOutput artifacts s stdout).1.files written := by
  rcases writeOutput_cases hfs artifacts stdout with ⟨hok, _⟩ | ⟨e', written, herror, hstops, hwritten⟩
  · rw [hok] at h
    cases h
  · rw [herror] at h
    cases h
    exact ⟨written, hstops, hwritten⟩

/-! ## What is left behind -/

/-- Two trees that hold the same entries. -/
def SameEntries (fs fs' : FileSystem) : Prop := ∀ l, fs'.entryAt? l = fs.entryAt? l

/--
What a compilation leaves behind that stops halfway: new directories on the way to the artifacts, and the
artifacts that were written before.
-/
structure IsPartial (artifacts : Path) (before after : FileSystem) (contracts : List CompiledContract) :
    Prop where
  made : MakesDirectories before (before.ensureDirectory artifacts).1
  written : WrittenArtifacts artifacts (before.ensureDirectory artifacts).1 after contracts
  /-- If the directory could be made, it was there already or is new. -/
  made_iff : (before.ensureDirectory artifacts).2 = .ok () →
    ((before.ensureDirectory artifacts).1 = before ↔
      before.isDirectory artifacts = true ∨ artifacts.isEmpty = true)
  /-- Nothing has changed if nothing was made, and what was written was there already. -/
  same_iff : SameEntries before after ↔ (before.ensureDirectory artifacts).1 = before ∧
    ∀ l c, lastTo? (fun c => artifactPath artifacts c.name) after contracts l = some c →
      before.entryAt? l = some (.file (artifactBytes c))

theorem ensureDirectory_eq_self_iff {fs : FileSystem} {p : Path} (hok : (fs.ensureDirectory p).2 = .ok ()) :
    (fs.ensureDirectory p).1 = fs ↔ fs.isDirectory p = true ∨ p.isEmpty = true := by
  constructor
  · intro hsame
    by_contra hnot
    rw [not_or, Bool.not_eq_true, Bool.not_eq_true] at hnot
    obtain ⟨l, hnone, hnew⟩ := exists_new_of_ensureDirectory hok hnot.1 hnot.2
    rw [hsame, hnone] at hnew
    cases hnew
  · rintro (hdir | hempty)
    · rw [ensureDirectory, if_pos hdir]
    · unfold ensureDirectory createDirectories
      split
      · rfl
      · obtain ⟨levels, hlevels⟩ : ∃ k, p.pieces.length = k + 1 :=
          Nat.exists_eq_succ_of_ne_zero fun h => pieces_ne_nil p (List.length_eq_zero_iff.mp h)
        rw [hlevels, createUpTo, if_pos hempty]

theorem sameEntries_iff {before made after : FileSystem} (hmade : MakesDirectories before made)
    (hwritten : WrittenArtifacts artifacts made after written) :
    SameEntries before after ↔ made = before ∧
      ∀ l c, lastTo? (fun c => artifactPath artifacts c.name) after written l = some c →
        before.entryAt? l = some (.file (artifactBytes c)) := by
  constructor
  · intro hsame
    constructor
    · rcases hmade.eq_or_new with hmade | ⟨l, hnone, hnew⟩
      · exact hmade
      · -- a new directory is still there in the end
        have hdir := (hwritten.onlyFiles.isDirectoryAt l).trans (isDirectoryAt_iff.mpr hnew)
        rw [isDirectoryAt_iff, hsame l, hnone] at hdir
        cases hdir
    · intro l c hlast
      rw [← hsame l, hwritten.entry l, hlast]
      rfl
  · rintro ⟨rfl, hthere⟩ l
    rw [hwritten.entry l]
    cases hlast : lastTo? (fun c => artifactPath artifacts c.name) after written l with
    | none => rfl
    | some c => exact (hthere l c hlast).symm

theorem isPartial {before after : FileSystem}
    (hwritten : WrittenArtifacts artifacts (before.ensureDirectory artifacts).1 after written) :
    IsPartial artifacts before after written where
  made := makesDirectories_ensureDirectory before artifacts
  written := hwritten
  made_iff := ensureDirectory_eq_self_iff
  same_iff := sameEntries_iff (makesDirectories_ensureDirectory before artifacts) hwritten

/--
**What a failed compilation leaves behind**, in any tree and for any compiler.  If the output of the
compiler was not used, no file has changed.  Otherwise there may be new directories, and artifacts of the
contracts before the one at which writing failed.
-/
theorem compile_failed (hfs : s.files.IsNested)
    (h : (compile (.solc program) source artifacts s).2 = .error e) :
    (usedOutput? program source artifacts s = none →
      (compile (.solc program) source artifacts s).1.files = s.files) ∧
    ∀ stdout, usedOutput? program source artifacts s = some stdout → ∃ written,
      StopsAt artifacts stdout s.files (compile (.solc program) source artifacts s).1.files e written ∧
      IsPartial artifacts s.files (compile (.solc program) source artifacts s).1.files written := by
  rw [compile] at h ⊢
  rcases compileWith_cases program source artifacts s with ⟨hnone, hsame⟩ | ⟨text, s₁, hsome, hfiles, hrun⟩
  · refine ⟨fun _ => hsame, fun stdout hstdout => ?_⟩
    rw [hnone] at hstdout
    cases hstdout
  · refine ⟨fun hnone => ?_, fun stdout hstdout => ?_⟩
    · rw [hsome] at hnone
      cases hnone
    · rw [hsome] at hstdout
      cases hstdout
      rw [hrun] at h ⊢
      obtain ⟨written, hstops, hwritten⟩ := writeOutput_error (hfiles ▸ hfs) h
      rw [hfiles] at hstops hwritten
      exact ⟨written, hstops, isPartial hwritten⟩

/-- A compiler in a working directory `w` with a source. -/
def compilerSession (stdout : String) (others : List (Location × Entry)) : Session where
  files :=
    ⟨[([encode "w"], .directory),
      ([encode "w", encode "T.sol"], .file []),
      ([encode "w", encode "solc"], .program ⟨.code 0, .code 0, encode stdout, []⟩)] ++ others,
      [encode "w"]⟩
  searchPath := []

/-- A compiler that prints no JSON. -/
def garbledSession : Session := compilerSession "Error: something went wrong" []

/-- A compiler whose second contract has a name that cannot name an artifact, and an artifact of the first
one that is there already. -/
def haltedSession : Session :=
  compilerSession
    "\x7b\"contracts\":\x7b\"T.sol:T\":\x7b\"abi\":[]\x7d,\"T.sol:a/b\":\x7b\"abi\":[]\x7d\x7d\x7d"
    [([encode "w", encode "out"], .directory),
      ([encode "w", encode "out", encode "T.json"], .file (encode "old"))]

/-- How a compilation ends, and how long the file at a location is then. -/
def errorAndLength (r : Session × Except CompileError Unit) (l : Location) :
    Except CompileError Unit × Option Nat :=
  (r.2, (r.1.files.bytesAt? l).map List.length)

theorem compile_halted :
    errorAndLength
        (compile (.solc (Path.ofString "./solc")) Path.current (Path.ofString "out") haltedSession)
        [encode "w", encode "out", encode "T.json"] =
      (.error (.io .notFound), some 83) := by cbv

/-- The failed compilation that stops at the second contract. -/
theorem compile_failed_halted :
    (usedOutput? (Path.ofString "./solc") Path.current (Path.ofString "out") haltedSession = none →
      (compile (.solc (Path.ofString "./solc")) Path.current (Path.ofString "out")
        haltedSession).1.files = haltedSession.files) ∧
    ∀ stdout,
      usedOutput? (Path.ofString "./solc") Path.current (Path.ofString "out") haltedSession =
        some stdout → ∃ written,
      StopsAt (Path.ofString "out") stdout haltedSession.files
        (compile (.solc (Path.ofString "./solc")) Path.current (Path.ofString "out")
          haltedSession).1.files (.io .notFound) written ∧
      IsPartial (Path.ofString "out") haltedSession.files
        (compile (.solc (Path.ofString "./solc")) Path.current (Path.ofString "out")
          haltedSession).1.files written :=
  have htree : haltedSession.files.IsTree := by decide +kernel
  compile_failed htree.isNested (congrArg Prod.fst compile_halted)

/-! ## Compilations that are not atomic -/

/-- A compilation that leaves every entry as it is, if it fails. -/
def IsAtomic (program source artifacts : Path) (s : Session) : Prop :=
  ∀ e, (compile (.solc program) source artifacts s).2 = .error e →
    SameEntries s.files (compile (.solc program) source artifacts s).1.files

/-- **An output that cannot be read leaves a directory behind**, if that of the artifacts was missing. -/
theorem not_isAtomic_of_unreadable {error : Json.ReadError}
    (hout : usedOutput? program source artifacts s = some stdout)
    (hbad : contractsOf stdout = .error error) (hmissing : s.files.isDirectory artifacts = false)
    (hne : artifacts.isEmpty = false) (hmade : (s.files.ensureDirectory artifacts).2 = .ok ()) :
    ¬ IsAtomic program source artifacts s := by
  intro hatomic
  obtain ⟨l, hnone, hnew⟩ := exists_new_of_ensureDirectory hmade hmissing hne
  have hwrite : ∀ s₁ : Session, s₁.files = s.files →
      (writeOutput artifacts s₁ stdout).2 = .error (.output error) ∧
        (writeOutput artifacts s₁ stdout).1.files = (s.files.ensureDirectory artifacts).1 := by
    intro s₁ hfiles
    unfold writeOutput
    rw [hfiles]
    cases hensure : s.files.ensureDirectory artifacts with
    | mk files result =>
      rw [hensure] at hmade
      subst hmade
      simp only [hbad, and_self]
  rcases compileWith_cases program source artifacts s with ⟨hunused, _⟩ | ⟨text, s₁, hsome, hfiles, hrun⟩
  · rw [hout] at hunused
    cases hunused
  · rw [hout] at hsome
    cases hsome
    obtain ⟨herror, hleft⟩ := hwrite s₁ hfiles
    rw [← hrun] at herror hleft
    have hsame := hatomic _ herror l
    rw [compile, hleft, hnew, hnone] at hsame
    cases hsame

/--
**Two compilations that are not atomic**: one leaves the directory of the artifacts behind, the other one
writes over an artifact.
-/
theorem not_isAtomic_sample :
    (garbledSession.files.IsPlainTree ∧
      ¬ IsAtomic (Path.ofString "./solc") Path.current (Path.ofString "out") garbledSession) ∧
    (haltedSession.files.IsPlainTree ∧
      ¬ IsAtomic (Path.ofString "./solc") Path.current (Path.ofString "out") haltedSession) := by
  refine ⟨⟨by decide +kernel, ?_⟩, ⟨by decide +kernel, fun hatomic => ?_⟩⟩
  · have hbad : contractsOf "Error: something went wrong" =
        .error ⟨.expectedValue, some ⟨1, 1⟩⟩ := by cbv
    have hout : usedOutput? (Path.ofString "./solc") Path.current (Path.ofString "out")
        garbledSession = some "Error: something went wrong" := by cbv
    exact not_isAtomic_of_unreadable hout hbad (by cbv) (by cbv) (by cbv)
  · have hkept := hatomic _ (congrArg Prod.fst compile_halted)
      [encode "w", encode "out", encode "T.json"]
    have hlength := congrArg Prod.snd compile_halted
    have hold : (haltedSession.files.bytesAt? [encode "w", encode "out", encode "T.json"]).map
        List.length = some 3 := by cbv
    rw [errorAndLength, bytesAt?, hkept, ← bytesAt?, hold] at hlength
    cases hlength

end ContractBindings.Compiler
