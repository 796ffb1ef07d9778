import ContractBindings.CommandLine.Arguments
import ContractBindings.Generate

/-!
# Running the command line

`execute` turns options into a configuration — options win over the manifest, the manifest wins over the
defaults — and generates the bindings.  `run` reads the arguments first, and says what is printed and
with which code the process exits.
-/

namespace ContractBindings.CommandLine

/-- Why a run fails. -/
inductive RunError where
  | missingSource (source : Path)
  | manifest (error : ManifestError)
  | generate (error : GenerateError)
  | nothingGenerated (artifacts : Nat)
  deriving DecidableEq, Repr

namespace RunError

def message : RunError → String
  | missingSource source => "source directory " ++ source.display ++ " does not exist"
  | manifest error => error.message
  | generate error => error.message
  | nothingGenerated artifacts =>
    "no bindings were generated from " ++ Nat.repr artifacts ++ " artifact(s)"

/-- The word that an error is announced with. -/
def label : String := "\x1b[1m\x1b[31merror\x1b[0m\x1b[1m:\x1b[0m "

/-- What ends the text of an error; what is wrong in a manifest's document is left to its reader. -/
def ending : RunError → String
  | manifest (.malformed _) | manifest (.shape _ _) => ""
  | _ => "\n"

/-- The text of an error on the terminal. -/
def report (e : RunError) : String := label ++ e.message ++ e.ending

end RunError

/-- The configuration that options and a manifest ask for. -/
def configOf (o : Options) (manifest : Option Manifest) : Config :=
  let base := Config.ofSource o.source
  let base := match manifest with
    | some m => base.withManifest m
    | none => base
  { base with
    artifacts := o.artifacts.getD base.artifacts
    dialect :=
      { runtimeModule := o.runtimeModule.getD base.dialect.runtimeModule
        runnerParameter := o.runnerParameter.getD base.dialect.runnerParameter } }

/-- The compiler that options and a manifest ask for. -/
def compilerOf (o : Options) (manifest : Option Manifest) : Compiler :=
  if o.skipCompile then .precompiled
  else .solc ((o.solc.orElse fun _ => manifest.bind Manifest.solc).getD Compiler.defaultProgram)

/-- What is told about a manifest that was read. -/
def manifestNotices (source : Path) : Option Manifest → List Notice
  | some _ => [.loadedManifest (Manifest.pathIn source)]
  | none => []

/-- Does what options ask for. -/
def execute (o : Options) (s : Session) : Session × Except RunError Report :=
  if !s.files.isDirectory o.source then (s, .error (.missingSource o.source))
  else
    match Manifest.load s.files o.source with
    | .error e => (s, .error (.manifest e))
    | .ok manifest =>
      let s := s.tellAll (manifestNotices o.source manifest)
      match generate (configOf o manifest) (compilerOf o manifest) s with
      | (s, .error e) => (s, .error (.generate e))
      | (s, .ok report) =>
        if report.isSuccess then (s, .ok report)
        else (s, .error (.nothingGenerated report.artifacts))

/-! ## The process -/

def versionText : String := "typify-contracts 0.1.0\n"

def helpText : String :=
  "Generate typed ethers bindings for Solidity contracts\n\n"
    ++ "Usage: typify-contracts [OPTIONS] <SRC|--src <SRC>>\n\n"
    ++ "Arguments:\n"
    ++ "  [SRC]  Directory containing the contract sources\n\n"
    ++ "Options:\n"
    ++ "      --src <SRC>\n"
    ++ "          Directory containing the contract sources (same as <SRC>)\n"
    ++ "      --artifacts <ARTIFACTS>\n"
    ++ "          Where artifacts and bindings are written [default: <SRC>/artifacts]\n"
    ++ "      --skip-compile\n"
    ++ "          Generate bindings from existing artifacts without running solc\n"
    ++ "      --solc <SOLC>\n"
    ++ "          Path of the solc binary\n"
    ++ "      --runtime-module <RUNTIME_MODULE>\n"
    ++ "          Module the runtime types are imported from [default: ethers]\n"
    ++ "      --runner-param <RUNNER_PARAM>\n"
    ++ "          Name of the runner parameter of generated factories [default: runner]\n"
    ++ "      --verbose\n"
    ++ "          Whether to print debug info\n"
    ++ "  -h, --help\n"
    ++ "          Print help\n"
    ++ "  -V, --version\n"
    ++ "          Print version\n"

/-- How a process ends. -/
inductive Ending where
  /-- The arguments could not be used. -/
  | usage (error : UsageError)
  /-- A text was asked for. -/
  | text (text : String)
  /-- The run was tried; `none` stands for success. -/
  | finished (verbose : Bool) (error : Option RunError)
  deriving DecidableEq, Repr

namespace Ending

def exitCode : Ending → Nat
  | usage _ => 2
  | text _ => 0
  | finished _ none => 0
  | finished _ (some _) => 1

/-- What is written to the output besides notices. -/
def stdout : Ending → String
  | text answer => answer
  | _ => ""

/-- What is written to the error output. -/
def stderr : Ending → String
  | usage error => error.message ++ "\n"
  | text _ => ""
  | finished _ none => ""
  | finished _ (some error) => error.report

/-- The notices that are shown: those for debugging only if they were asked for. -/
def shown : Ending → List Notice → List Notice
  | finished true _, notices => notices
  | _, notices => notices.filter fun n => n.level != .debug

end Ending

/-- Runs the program on arguments. -/
def run (arguments : List String) (s : Session) : Session × Ending :=
  match parse arguments with
  | .error e => (s, .usage e)
  | .ok .help => (s, .text helpText)
  | .ok .version => (s, .text versionText)
  | .ok (.run options) =>
    match execute options s with
    | (s, .ok _) => (s, .finished options.verbose none)
    | (s, .error e) => (s, .finished options.verbose (some e))

end ContractBindings.CommandLine
