import ContractBindings.Compiler.Output
import ContractBindings.Glob.Search
import ContractBindings.Json.Printer
import ContractBindings.Session
import ContractBindings.Text.Blank

/-!
# Compiling contracts

`compile` fills a directory with one artifact for each contract.  The compiler program is called twice:
for its version, and then on all sources if there are any.  Its output is read as a whole before the
first artifact is written; of several contracts of one name the last is kept.

`Compiler.precompiled` stands for artifacts that exist already.
-/

namespace ContractBindings

open Text

/-- How artifacts come about. -/
inductive Compiler where
  /-- They exist already. -/
  | precompiled
  /-- A program makes them. -/
  | solc (program : Path)
  deriving DecidableEq, Repr

def Compiler.defaultProgram : Path := Path.ofString "solc"

/-- What a process left behind, as text. -/
structure ProcessReport where
  name : String
  stdout : String
  stderr : String
  exitCode : Option Nat
  deriving DecidableEq, Repr

/-- Why contracts could not be compiled. -/
inductive CompileError where
  | io (error : IoError)
  | pattern (error : Glob.PatternError)
  | compilerNotFound (program : Path)
  | output (error : Json.ReadError)
  | failed (report : ProcessReport)
  | missingArtifacts (directory : Path)
  deriving DecidableEq, Repr

namespace CompileError

/-- Where the compiler can be found. -/
def link : String := "https://docs.soliditylang.org/en/latest/installing-solidity.html"

def describeExit : Option Nat → String
  | some code => "Some(" ++ Nat.repr code ++ ")"
  | none => "None"

def message : CompileError → String
  | io error => "io error: " ++ error.message
  | pattern error => "invalid source pattern: " ++ error.message
  | compilerNotFound program =>
    program.display ++ " not found. Please see\n" ++ Colour.red.paint link
  | output error => "unexpected solc output: " ++ error.message
  | failed report =>
    report.name ++ " failed (exit code: " ++ describeExit report.exitCode ++ ")\n"
      ++ trimEnd report.stderr
  | missingArtifacts directory => "artifact directory " ++ directory.display ++ " does not exist"

end CompileError

namespace Compiler

def sourceExtension : String := "sol"

/-- The sources below a directory, in order, without those in the directory of the artifacts. -/
def sources (files : FileSystem) (source artifacts : Path) : Except CompileError (List Path) :=
  match Glob.filesBelow files source sourceExtension with
  | .ok paths => .ok (paths.filter fun p => !p.startsWith artifacts)
  | .error e => .error (.pattern e)

/-- The arguments that make the compiler compile sources. -/
def arguments (source : Path) (paths : List Path) : List Bytes :=
  [encode "--combined-json", encode "abi,bin", encode "--base-path", source.bytes]
    ++ paths.map Path.bytes

def report (outcome : Outcome) : ProcessReport where
  name := "solc"
  stdout := decodeLossy outcome.stdout
  stderr := decodeLossy outcome.stderr
  exitCode := outcome.status.code?

def artifactPath (artifacts : Path) (name : String) : Path :=
  artifacts.join (Path.ofString (name ++ ".json"))

def artifactBytes (c : CompiledContract) : Bytes := encode (Json.pretty "  " c.artifact)

/--
Writes the artifacts of contracts one by one; `written` are the names of those before.  The first one
that cannot be written ends it.
-/
def writeArtifacts (artifacts : Path) (s : Session) (written : List String) :
    List CompiledContract → Session × Except CompileError Unit
  | [] => (s, .ok ())
  | c :: rest =>
    let s := if written.contains c.name then s.tell (.repeatedContract c.name c.source) else s
    let path := artifactPath artifacts c.name
    match s.write path (artifactBytes c) with
    | .error e => (s, .error (.io e))
    | .ok s => writeArtifacts artifacts (s.tell (.wroteArtifact path)) (c.name :: written) rest

/-- Makes the directory of the artifacts and writes those that the compiler's output holds. -/
def writeOutput (artifacts : Path) (s : Session) (stdout : String) :
    Session × Except CompileError Unit :=
  let (files, result) := s.files.ensureDirectory artifacts
  let s := { s with files }
  match result with
  | .error e => (s, .error (.io e))
  | .ok () =>
    match contractsOf stdout with
    | .error e => (s, .error (.output e))
    | .ok contracts => writeArtifacts artifacts s [] contracts

/-- Calls a compiler program on sources and writes the artifacts. -/
def compileSources (program source artifacts : Path) (s : Session) (paths : List Path) :
    Session × Except CompileError Unit :=
  let s := s.tell (.startedCompiler paths.length program)
  match s.call program (arguments source paths) with
  | (s, none) => (s, .error (.io .notFound))
  | (s, some outcome) =>
    if outcome.status.isSuccess then writeOutput artifacts s (decodeLossy outcome.stdout)
    else (s, .error (.failed (report outcome)))

/-- Compiles the sources below a directory with a program. -/
def compileWith (program source artifacts : Path) (s : Session) :
    Session × Except CompileError Unit :=
  match s.answers program with
  | (s, false) => (s, .error (.compilerNotFound program))
  | (s, true) =>
    match sources s.files source artifacts with
    | .error e => (s, .error e)
    | .ok [] => (s.tell (.noSources sourceExtension source), .ok ())
    | .ok paths => compileSources program source artifacts s paths

/-- Fills the directory of the artifacts. -/
def compile (compiler : Compiler) (source artifacts : Path) (s : Session) :
    Session × Except CompileError Unit :=
  match compiler with
  | precompiled =>
    (s, if s.files.isDirectory artifacts then .ok () else .error (.missingArtifacts artifacts))
  | solc program => compileWith program source artifacts s

end Compiler

end ContractBindings
