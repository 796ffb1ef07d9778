import ContractBindings.Compiler.Compile
import ContractBindings.Proofs.Glob.Listing

/-!
# Courses of a compilation

A compilation looks for its sources, calls the compiler for its version and then on all sources at once, and
writes the output.  It stops where a call does not succeed, and where there are no sources.

* `exists_sorted_sources`: the sources are always found, in order;
* `Course`: the courses that a compilation can take, each with its calls, the session that is left behind and
  the result;
* `compileWith_course`: it takes one of them, in any tree and for any compiler.
-/

set_option autoImplicit false

namespace ContractBindings.Compiler

open Text FileSystem Glob

variable {s : Session} {program source artifacts : Path} {paths : List Path}

/-! ## Sources -/

/-- **The sources are always found**, and in order. -/
theorem exists_sorted_sources (fs : FileSystem) (source artifacts : Path) :
    ∃ paths, sources fs source artifacts = .ok paths ∧ paths.Pairwise fun p q => p.key ≤ q.key := by
  have hplain : IsPlainExtension sourceExtension := by decide
  obtain ⟨tokens, htokens⟩ := tokenize_filesPattern hplain source.display.toList
  have hfound : filesBelow fs source sourceExtension = _ := filesBelow_eq hplain.no_slash source
  rw [filesPattern, htokens, tokenize_extension hplain] at hfound
  rw [sources, hfound]
  exact ⟨_, rfl, (Path.pairwise_sort _).filter _⟩

/-! ## Calls -/

/-- No call of the compiler to compile looks like the one that asks for its version. -/
theorem run_arguments (p : Program) (source : Path) (paths : List Path) :
    p.run (arguments source paths) = p.outcome := by
  have hne : (arguments source paths).head? ≠ some versionArgument := by
    intro h
    have := encode_injective (Option.some.inj h)
    exact absurd this (by decide)
  rw [Program.run, if_neg hne]

theorem isSuccess_iff {status : ExitStatus} : status.isSuccess = true ↔ status = .code 0 := by
  cases status <;> simp [ExitStatus.isSuccess, ExitStatus.code?]

def called (s : Session) (arguments : List Bytes) : Session := { s with calls := s.calls ++ [arguments] }

def asked (s : Session) : Session := called s [versionArgument]

/-- The session behind the call on sources. -/
def compiled (program source : Path) (paths : List Path) (s : Session) : Session :=
  called ((asked s).tell (.startedCompiler paths.length program)) (arguments source paths)

/-! ## Courses -/

/-- The courses of a compilation, by its sources: what is called, what is left behind, and the result. -/
inductive Course (program source artifacts : Path) (s : Session) :
    List Path → List (List Bytes) → Session → Except CompileError Unit → Prop where
  /-- There is no such compiler. -/
  | missing {paths : List Path} (hprogram : s.program? program = none) :
    Course program source artifacts s paths [] s (.error (.compilerNotFound program))
  /-- It does not answer. -/
  | unanswered {paths : List Path} {p : Program} (hprogram : s.program? program = some p)
    (hversion : p.versionStatus ≠ .code 0) :
    Course program source artifacts s paths [[versionArgument]] (asked s)
      (.error (.compilerNotFound program))
  /-- There are no sources. -/
  | idle {p : Program} (hprogram : s.program? program = some p) (hversion : p.versionStatus = .code 0) :
    Course program source artifacts s [] [[versionArgument]]
      ((asked s).tell (.noSources sourceExtension source)) (.ok ())
  /-- It fails on the sources. -/
  | failed {p : Program} {q : Path} {qs : List Path} (hprogram : s.program? program = some p)
    (hversion : p.versionStatus = .code 0) (hstatus : p.outcome.status ≠ .code 0) :
    Course program source artifacts s (q :: qs) [[versionArgument], arguments source (q :: qs)]
      (compiled program source (q :: qs) s) (.error (.failed (report p.outcome)))
  /-- Its output is written. -/
  | used {p : Program} {q : Path} {qs : List Path} (hprogram : s.program? program = some p)
    (hversion : p.versionStatus = .code 0) (hstatus : p.outcome.status = .code 0) :
    Course program source artifacts s (q :: qs) [[versionArgument], arguments source (q :: qs)]
      (writeOutput artifacts (compiled program source (q :: qs) s) (decodeLossy p.outcome.stdout)).1
      (writeOutput artifacts (compiled program source (q :: qs) s) (decodeLossy p.outcome.stdout)).2

/-- **A compilation takes one of these courses.** -/
theorem compileWith_course (program : Path) (hsources : sources s.files source artifacts = .ok paths) :
    ∃ started, Course program source artifacts s paths started
      (compileWith program source artifacts s).1 (compileWith program source artifacts s).2 := by
  unfold compileWith
  cases hp : s.program? program with
  | none =>
    have hanswers : s.answers program = (s, false) := by simp [Session.answers, Session.call, hp]
    rw [hanswers]
    exact ⟨_, .missing hp⟩
  | some p =>
    have hanswers : s.answers program = (asked s, p.versionStatus.isSuccess) := by
      simp [Session.answers, Session.call, hp, Program.run, asked, called]
    have hfiles : (asked s).files = s.files := rfl
    rw [hanswers]
    cases hversion : p.versionStatus.isSuccess with
    | false => exact ⟨_, .unanswered hp fun h => by simp [isSuccess_iff.mpr h] at hversion⟩
    | true =>
      have hzero := isSuccess_iff.mp hversion
      simp only [hfiles, hsources]
      cases paths with
      | nil => exact ⟨_, .idle hp hzero⟩
      | cons q qs =>
        have hagain : ((asked s).tell (.startedCompiler (q :: qs).length program)).program? program =
            some p := hp
        simp only [compileSources, Session.call, hagain, run_arguments]
        cases hstatus : p.outcome.status.isSuccess with
        | false => exact ⟨_, .failed hp hzero fun h => by simp [isSuccess_iff.mpr h] at hstatus⟩
        | true => exact ⟨_, .used hp hzero (isSuccess_iff.mp hstatus)⟩

end ContractBindings.Compiler
