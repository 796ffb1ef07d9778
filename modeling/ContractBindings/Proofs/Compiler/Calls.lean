import Mathlib
import ContractBindings.Proofs.Compiler.Failure

/-!
# How the compiler is called

A compilation calls the compiler for its version, and then on all sources at once.  It stops where a call
does not succeed, and nothing is written before the output of the second one was read as a whole.

* `writeOutput_calls`, `writeOutput_of_unread`: writing calls nothing, and no artifact is written where the
  output cannot be read;
* `Course.keepsProtocol`, `compile_calls`: what every course of a compilation has in common.
-/

set_option autoImplicit false

namespace ContractBindings.Compiler

open Text FileSystem

variable {s s' : Session} {program source artifacts : Path} {paths : List Path} {stdout : String}
  {started : List (List Bytes)} {result : Except CompileError Unit}

/-! ## Writing -/

theorem writeArtifacts_calls (artifacts : Path) (contracts : List CompiledContract) (seen : List String) :
    (writeArtifacts artifacts s seen contracts).1.calls = s.calls := by
  induction contracts generalizing s seen with
  | nil => rfl
  | cons c rest ih =>
    obtain ⟨s₁, _, hs₁, hstep⟩ := writeArtifacts_cons artifacts s seen c rest
    rw [hstep]
    cases s.files.putFile (artifactPath artifacts c.name) (artifactBytes c) with
    | error e => exact hs₁
    | ok files => exact (ih _).trans hs₁

/-- Writing calls nothing. -/
theorem writeOutput_calls (artifacts : Path) (stdout : String) :
    (writeOutput artifacts s stdout).1.calls = s.calls := by
  unfold writeOutput
  split
  split
  · rfl
  · split
    · rfl
    · exact writeArtifacts_calls artifacts _ []

/-- An artifact was written: somewhere there is a new file, or one with other bytes, or the user was told of
it. -/
def WroteArtifact (s s' : Session) : Prop :=
  (∃ l b, s'.files.entryAt? l = some (.file b) ∧ s.files.entryAt? l ≠ some (.file b)) ∨
    ∃ told p, s'.notices = s.notices ++ told ∧ Notice.wroteArtifact p ∈ told

/-- Where at most directories are made and nothing is told of artifacts, none was written. -/
theorem not_wroteArtifact (told : List Notice) (hfiles : MakesDirectories s.files s'.files)
    (hnotices : s'.notices = s.notices ++ told) (htold : ∀ p, Notice.wroteArtifact p ∉ told) :
    ¬ WroteArtifact s s' := by
  rintro (⟨l, b, hnew, hold⟩ | ⟨told', p, hp, hmem⟩)
  · rcases hfiles.entry l with hsame | ⟨_, hdir⟩
    · exact hold (hsame ▸ hnew)
    · rw [hdir] at hnew
      cases hnew
  · cases List.append_cancel_left (hnotices.symm.trans hp)
    exact htold p hmem

/-- **Output that cannot be read** leaves directories behind at most. -/
theorem writeOutput_of_unread (artifacts : Path) (s : Session) {e : Json.ReadError} (h : contractsOf stdout = .error e) :
    MakesDirectories s.files (writeOutput artifacts s stdout).1.files ∧
      (writeOutput artifacts s stdout).1.notices = s.notices := by
  have hmade := makesDirectories_ensureDirectory s.files artifacts
  unfold writeOutput
  split
  rename_i heq
  rw [heq] at hmade
  split
  · exact ⟨hmade, rfl⟩
  · rw [h]
    exact ⟨hmade, rfl⟩

/-! ## The protocol -/

/-- The compiler answers when it is called for its version. -/
def Answers (s : Session) (program : Path) : Prop :=
  ∃ p, s.program? program = some p ∧ p.versionStatus = .code 0

/-- What a compilation of these sources keeps to, whatever the compiler does. -/
structure KeepsProtocol (program source artifacts : Path) (s : Session) (paths : List Path)
    (started : List (List Bytes)) (s' : Session) (result : Except CompileError Unit) : Prop where
  calls : s'.calls = s.calls ++ started
  /-- The compiler is called for its version, and then on all sources. -/
  isPrefix : started <+: [[versionArgument], [encode "--combined-json", encode "abi,bin",
    encode "--base-path", source.bytes] ++ paths.map Path.bytes]
  /-- The second call is made if the first one succeeds and there are sources. -/
  second_iff : started.length = 2 ↔ Answers s program ∧ paths ≠ []
  /-- An artifact is written if the second call succeeds and all of its output can be read. -/
  written : WroteArtifact s s' → started.length = 2 ∧ ∃ p contracts, s.program? program = some p ∧
    p.outcome.status = .code 0 ∧ contractsOf (decodeLossy p.outcome.stdout) = .ok contracts
  /-- A compiler that does not answer is no compiler. -/
  unanswered : ¬ Answers s program → result = .error (.compilerNotFound program) ∧ s'.files = s.files
  /-- Without sources there is nothing to do. -/
  idle : Answers s program → paths = [] → result = .ok () ∧ s'.files = s.files

/-- **Every course keeps to the protocol.** -/
theorem Course.keepsProtocol (h : Course program source artifacts s paths started s' result) :
    KeepsProtocol program source artifacts s paths started s' result := by
  cases h with
  | missing hprogram =>
    have hnot : ¬ Answers s program := by
      rintro ⟨p, hp, _⟩
      rw [hprogram] at hp
      cases hp
    refine ⟨by simp, List.nil_prefix, by simp [hnot], fun hwrote => ?_, fun _ => ⟨rfl, rfl⟩,
      fun hanswers => absurd hanswers hnot⟩
    exact absurd hwrote (not_wroteArtifact [] .refl (List.append_nil _).symm (by simp))
  | unanswered hprogram hversion =>
    have hnot : ¬ Answers s program := by
      rintro ⟨p, hp, hzero⟩
      rw [hprogram] at hp
      cases hp
      exact hversion hzero
    refine ⟨rfl, ⟨_, rfl⟩, by simp [hnot], fun hwrote => ?_, fun _ => ⟨rfl, rfl⟩,
      fun hanswers => absurd hanswers hnot⟩
    exact absurd hwrote (not_wroteArtifact [] .refl (List.append_nil _).symm (by simp))
  | idle hprogram hversion =>
    refine ⟨rfl, ⟨_, rfl⟩, by simp, fun hwrote => ?_,
      fun hnot => absurd ⟨_, hprogram, hversion⟩ hnot, fun _ _ => ⟨rfl, rfl⟩⟩
    exact absurd hwrote (not_wroteArtifact [.noSources sourceExtension source] .refl rfl (by simp))
  | @failed p q qs hprogram hversion hstatus =>
    have hanswers : Answers s program := ⟨_, hprogram, hversion⟩
    refine ⟨by simp [compiled, asked, called, Session.tell], List.prefix_rfl, by simp [hanswers],
      fun hwrote => ?_, fun hnot => absurd hanswers hnot, fun _ hnil => by cases hnil⟩
    exact absurd hwrote (not_wroteArtifact [.startedCompiler (q :: qs).length program] .refl rfl (by simp))
  | @used p q qs hprogram hversion hstatus =>
    have hanswers : Answers s program := ⟨_, hprogram, hversion⟩
    refine ⟨by simp [writeOutput_calls, compiled, asked, called, Session.tell], List.prefix_rfl,
      by simp [hanswers], fun hwrote => ⟨rfl, p, ?_⟩, fun hnot => absurd hanswers hnot,
      fun _ hnil => by cases hnil⟩
    cases hread : contractsOf (decodeLossy p.outcome.stdout) with
    | ok contracts => exact ⟨contracts, hprogram, hstatus, rfl⟩
    | error e =>
      obtain ⟨hmade, hnotices⟩ :=
        writeOutput_of_unread artifacts (compiled program source (q :: qs) s) hread
      exact absurd hwrote (not_wroteArtifact _ hmade hnotices (by simp))

/-- **How the compiler is called**, in any tree, for any directories and whatever the compiler does. -/
theorem compile_calls (program source artifacts : Path) (s : Session) :
    ∃ paths, sources s.files source artifacts = .ok paths ∧ (paths.Pairwise fun p q => p.le q = true) ∧
      ∃ started, KeepsProtocol program source artifacts s paths started
        (compile (.solc program) source artifacts s).1 (compile (.solc program) source artifacts s).2 := by
  obtain ⟨paths, hsources, hsorted⟩ := exists_sorted_sources s.files source artifacts
  obtain ⟨started, hcourse⟩ : ∃ started, Course program source artifacts s paths started _ _ :=
    compileWith_course program hsources
  exact ⟨paths, hsources, hsorted.imp Path.le_iff.mpr, started, hcourse.keepsProtocol⟩

end ContractBindings.Compiler
