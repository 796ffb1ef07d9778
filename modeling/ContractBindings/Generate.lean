import ContractBindings.Compiler.Compile
import ContractBindings.Manifest

/-!
# Generating bindings

`generate` compiles the sources and writes a binding beside every artifact.  A failing compiler ends the
run; an artifact that cannot be read, or whose binding cannot be written, is reported and skipped
(`bindAll`).
-/

namespace ContractBindings

open Text Binding

/-- Why an artifact has no binding. -/
inductive ArtifactError where
  | read (error : IoError)
  | document (error : Abi.DocumentError)
  | write (error : IoError)
  deriving DecidableEq, Repr

def ArtifactError.message : ArtifactError → String
  | read error => "io error: " ++ error.message
  | document error => error.message
  | write error => "failed to write binding: " ++ error.message

/-- Reads an artifact. -/
def loadArtifact (files : FileSystem) (p : Path) : Except ArtifactError Abi.Document :=
  match files.textAt p with
  | .error e => .error (.read e)
  | .ok text =>
    match Abi.Document.ofText text with
    | .error e => .error (.document e)
    | .ok d => .ok d

/-- An artifact without a binding. -/
structure Skipped where
  path : Path
  reason : ArtifactError
  deriving DecidableEq, Repr

/-- What a run has done. -/
structure Report where
  /-- How many artifacts were found. -/
  artifacts : Nat
  /-- The bindings that were written, in order. -/
  generated : List Path
  /-- The artifacts without a binding, in order. -/
  skipped : List Skipped
  deriving DecidableEq, Repr

/-- A run succeeds if there was nothing to do or a binding was written. -/
def Report.isSuccess (r : Report) : Bool := r.artifacts == 0 || !r.generated.isEmpty

/-- Why a run ended early. -/
inductive GenerateError where
  | compile (error : CompileError)
  | pattern (error : Glob.PatternError)
  deriving DecidableEq, Repr

def GenerateError.message : GenerateError → String
  | compile error => error.message
  | pattern error => "invalid artifact pattern: " ++ error.message

namespace Generate

def contractName (artifact : Path) : String := (artifact.fileStem?.map decodeLossy).getD ""

def bindingName (c : Config) (contract : String) : String := Binding.fileName contract c.bindingExtension

def bindingOf (c : Config) (contract : String) (d : Abi.Document) : BindingModule :=
  BindingModule.render c.dialect contract d (Signature.ofDocument d)

/-- What is told about a document: its parts, and what its bindings leave out. -/
def documentNotices (contract : String) (d : Abi.Document) (m : BindingModule) : List Notice :=
  Notice.ofDocument d
    ++ [.summarized contract d.summary]
    ++ d.unmapped.map Notice.unmappedType
    ++ ((Signature.ofDocument d).filter Signature.hasUnknown).map
        (fun s => Notice.usesUnmapped contract s.name)
    ++ m.overloaded.map (Notice.overloadedFunction contract)

/-- Writes the binding of one artifact, and gives its place. -/
def bind (c : Config) (s : Session) (artifact : Path) : Session × Except ArtifactError Path :=
  let contract := contractName artifact
  let s := s.tell (.generating (bindingName c contract))
  match loadArtifact s.files artifact with
  | .error e => (s, .error e)
  | .ok d =>
    let m := bindingOf c contract d
    let s := s.tellAll (documentNotices contract d m)
    let path := artifact.withFileName (Path.ofString (m.fileName c.bindingExtension))
    match s.write path (encode m.source) with
    | .error e => (s, .error (.write e))
    | .ok s => (s.tell (.generated (bindingName c contract)), .ok path)

/-- Writes the bindings of artifacts one by one, each in the state that those before left behind. -/
def bindAll (c : Config) (s : Session) : List Path → Session × List Path × List Skipped
  | [] => (s, [], [])
  | artifact :: rest =>
    match bind c s artifact with
    | (s, .ok path) =>
      let (s, generated, skipped) := bindAll c s rest
      (s, path :: generated, skipped)
    | (s, .error e) =>
      let (s, generated, skipped) := bindAll c (s.tell (.skipped artifact e.message)) rest
      (s, generated, ⟨artifact, e⟩ :: skipped)

/-- The artifacts below a directory, in order. -/
def findArtifacts (files : FileSystem) (directory : Path) (extension : String) :
    Except Glob.PatternError (List Path) :=
  Glob.filesBelow files directory extension

/-- Writes the bindings of all artifacts that are found. -/
def bindFound (c : Config) (s : Session) (artifacts : List Path) : Session × Report :=
  let (s, generated, skipped) := bindAll c s artifacts
  let s :=
    if artifacts.isEmpty then s.tell (.noArtifacts c.artifactExtension c.artifacts) else s
  (s.tell (.finished generated.length skipped.length), ⟨artifacts.length, generated, skipped⟩)

end Generate

/-- Compiles the sources, then writes a binding beside every artifact. -/
def generate (c : Config) (compiler : Compiler) (s : Session) :
    Session × Except GenerateError Report :=
  let s := s.tell (.compiling c.source)
  match compiler.compile c.source c.artifacts s with
  | (s, .error e) => (s, .error (.compile e))
  | (s, .ok ()) =>
    let s := s.tell (.compiled c.artifacts)
    match Generate.findArtifacts s.files c.artifacts c.artifactExtension with
    | .error e => (s, .error (.pattern e))
    | .ok artifacts =>
      let (s, report) := Generate.bindFound c s artifacts
      (s, .ok report)

end ContractBindings
