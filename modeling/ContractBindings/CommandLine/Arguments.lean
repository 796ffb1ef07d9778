import ContractBindings.FileSystem.Path

/-!
# Arguments of the command line

`parse` reads a list of arguments as an invocation.  An option takes its value behind an equals sign or
from the next argument, which must not look like an option itself; behind `--` nothing is an option.

An option waits for its value, and is judged when the next known argument or the end is reached
(`settle`).  An argument that is not known is reported at once.  Conflicts and missing arguments are
reported last.
-/

namespace ContractBindings.CommandLine

/-- The arguments that can be given. -/
inductive Argument where
  /-- The source directory, given by its place. -/
  | source
  | sourceOption
  | artifacts
  | skipCompile
  | solc
  | runtimeModule
  | runnerParameter
  | verbose
  | help
  | version
  deriving DecidableEq, Repr

namespace Argument

/-- The options by their long names. -/
def ofLong? (name : String) : Option Argument :=
  if name = "src" then some sourceOption
  else if name = "artifacts" then some artifacts
  else if name = "skip-compile" then some skipCompile
  else if name = "solc" then some solc
  else if name = "runtime-module" then some runtimeModule
  else if name = "runner-param" then some runnerParameter
  else if name = "verbose" then some verbose
  else if name = "help" then some help
  else if name = "version" then some version
  else none

/-- The options by their short names. -/
def ofShort? (c : Char) : Option Argument :=
  if c = 'h' then some help else if c = 'V' then some version else none

/-- How an argument is spelled in messages. -/
def spelling : Argument → String
  | source => "[SRC]"
  | sourceOption => "--src <SRC>"
  | artifacts => "--artifacts <ARTIFACTS>"
  | skipCompile => "--skip-compile"
  | solc => "--solc <SOLC>"
  | runtimeModule => "--runtime-module <RUNTIME_MODULE>"
  | runnerParameter => "--runner-param <RUNNER_PARAM>"
  | verbose => "--verbose"
  | help => "--help"
  | version => "--version"

def takesValue : Argument → Bool
  | skipCompile | verbose | help | version => false
  | source | sourceOption | artifacts | solc | runtimeModule | runnerParameter => true

/-- Whether the value of an argument is a path, which must not be empty. -/
def isPath : Argument → Bool
  | source | sourceOption | artifacts | solc => true
  | runtimeModule | runnerParameter | skipCompile | verbose | help | version => false

end Argument

/-- Why arguments cannot be used. -/
inductive UsageError where
  | unexpectedArgument (argument : String)
  | unexpectedValue (value : String) (argument : Argument)
  | missingValue (argument : Argument)
  | repeated (argument : Argument)
  | conflict (first second : Argument)
  | missingSource
  deriving DecidableEq, Repr

def UsageError.message : UsageError → String
  | unexpectedArgument argument => "error: unexpected argument '" ++ argument ++ "' found"
  | unexpectedValue value argument =>
    "error: unexpected value '" ++ value ++ "' for '" ++ argument.spelling
      ++ "' found; no more were expected"
  | missingValue argument =>
    "error: a value is required for '" ++ argument.spelling ++ "' but none was supplied"
  | repeated argument =>
    "error: the argument '" ++ argument.spelling ++ "' cannot be used multiple times"
  | conflict first second =>
    "error: the argument '" ++ first.spelling ++ "' cannot be used with '" ++ second.spelling ++ "'"
  | missingSource => "error: the following required arguments were not provided:"

/-- What a run is asked to do. -/
structure Options where
  source : Path
  artifacts : Option Path
  skipCompile : Bool
  solc : Option Path
  runtimeModule : Option String
  runnerParameter : Option String
  verbose : Bool
  deriving DecidableEq, Repr

inductive Invocation where
  | run (options : Options)
  | help
  | version
  deriving DecidableEq, Repr

/-! ## Reading arguments -/

/-- What has been read of the arguments. -/
structure Progress where
  /-- The arguments that were judged, in order, with their values. -/
  given : List (Argument × String) := []
  /-- The argument that has not been judged yet, with its value if there is one. -/
  pending : Option (Argument × Option String) := none
  /-- Whether the source directory was given by its place. -/
  sourceTaken : Bool := false

namespace Progress

def has (p : Progress) (a : Argument) : Bool := p.given.any fun g => g.1 == a

def value? (p : Progress) (a : Argument) : Option String := p.given.lookup a

/-- Judges an argument with its value. -/
def accept (p : Progress) (a : Argument) (value : Option String) : Except UsageError Progress :=
  if a.takesValue && value.isNone then .error (.missingValue a)
  else if p.has a then .error (.repeated a)
  else if a.isPath && value == some "" then .error (.missingValue a)
  else .ok { p with given := p.given ++ [(a, value.getD "")] }

/-- Judges the argument that is pending. -/
def settle (p : Progress) : Except UsageError Progress :=
  match p.pending with
  | none => .ok p
  | some (a, value) => { p with pending := none }.accept a value

/-- The source directory, by its place or by its option. -/
def source? (p : Progress) : Option String :=
  match p.value? .source with
  | some s => some s
  | none => p.value? .sourceOption

/-- The two ways to give the source directory, in the order in which they were given. -/
def sources (p : Progress) : List Argument :=
  (p.given.map Prod.fst).filter fun a => a == .source || a == .sourceOption

/-- What the arguments ask for when all of them have been read. -/
def finish (p : Progress) : Except UsageError Invocation := do
  let p ← p.settle
  match p.sources, p.source? with
  | a :: b :: _, _ => .error (.conflict a b)
  | _, none => .error .missingSource
  | _, some source =>
    .ok (.run
      { source := Path.ofString source
        artifacts := (p.value? .artifacts).map Path.ofString
        skipCompile := p.has .skipCompile
        solc := (p.value? .solc).map Path.ofString
        runtimeModule := p.value? .runtimeModule
        runnerParameter := p.value? .runnerParameter
        verbose := p.has .verbose })

/-- Reads an argument by its place. -/
def place (p : Progress) (argument : String) : Except UsageError Progress :=
  if p.sourceTaken then .error (.unexpectedArgument argument)
  else do
    let p ← p.settle
    .ok { p with pending := some (.source, some argument), sourceTaken := true }

end Progress

/-- Splits the name of a long option from the value behind its first equals sign. -/
def splitEquals (cs : List Char) : String × Option String :=
  match cs.dropWhile (· != '=') with
  | [] => (String.ofList cs, none)
  | _ :: value => (String.ofList (cs.takeWhile (· != '=')), some (String.ofList value))

/-- What an argument that is not the value of an option leads to. -/
inductive Reading where
  | going (progress : Progress)
  | done (invocation : Invocation)

/-- Reads an option that is known, with the value behind its equals sign. -/
def readKnown (p : Progress) (a : Argument) (attached : Option String) :
    Except UsageError Reading :=
  match a.takesValue, attached with
  | false, some value => .error (.unexpectedValue value a)
  | true, none => do
    let p ← p.settle
    .ok (.going { p with pending := some (a, none) })
  | _, _ => do
    let p ← p.settle
    match a with
    | .help => .ok (.done .help)
    | .version => .ok (.done .version)
    | a => do
      let p ← p.accept a attached
      .ok (.going p)

/-- Reads a long option, behind its hyphens. -/
def readLong (p : Progress) (cs : List Char) : Except UsageError Reading :=
  let (name, attached) := splitEquals cs
  match Argument.ofLong? name with
  | some a => readKnown p a attached
  | none => .error (.unexpectedArgument ("--" ++ name))

/-- Reads short options, behind their hyphen; the first one decides. -/
def readShort (p : Progress) (c : Char) : Except UsageError Reading :=
  match Argument.ofShort? c with
  | some a => readKnown p a none
  | none => .error (.unexpectedArgument (String.ofList ['-', c]))

/-- Reads arguments that are no options. -/
def readPlaces (p : Progress) : List String → Except UsageError Invocation
  | [] => p.finish
  | argument :: rest => do
    let p ← p.place argument
    readPlaces p rest

/-- Reads an argument before any `--`. -/
def readArgument (p : Progress) (argument : String) : Except UsageError Reading :=
  match argument.toList, p.pending with
  | '-' :: '-' :: cs, _ => readLong p cs
  | '-' :: c :: _, _ => readShort p c
  | _, some (a, none) => .ok (.going { p with pending := some (a, some argument) })
  | _, _ => (p.place argument).map .going

/-- Reads arguments on from what has been read. -/
def readArguments (p : Progress) : List String → Except UsageError Invocation
  | [] => p.finish
  | argument :: rest =>
    if argument = "--" then readPlaces p rest
    else
      match readArgument p argument with
      | .error e => .error e
      | .ok (.done invocation) => .ok invocation
      | .ok (.going p) => readArguments p rest

/--
Reads the arguments of the command line.  They are texts: the places of files, which on a machine may be any
bytes without a zero, are read only where they are UTF-8.
-/
def parse (arguments : List String) : Except UsageError Invocation := readArguments {} arguments

end ContractBindings.CommandLine
