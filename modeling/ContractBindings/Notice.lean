import ContractBindings.Abi.Document
import ContractBindings.FileSystem.Path
import ContractBindings.Text.Colour

/-!
# Notices

What a run tells its user, in order.  A notice is what happened; its level, its colour and its wording
follow from it.  Notices at the level `debug` are for those who ask for them.
-/

namespace ContractBindings

open Text

/-- How important a notice is. -/
inductive Notice.Level where
  | debug
  | info
  | warn
  deriving DecidableEq, Repr

def Notice.Level.word : Notice.Level → String
  | debug => "debug"
  | info => "info"
  | warn => "warn"

inductive Notice where
  | ignoredItem (index : Nat) (error : ShapeError)
  | unmappedType (base : String)
  | loadedManifest (path : Path)
  | compiling (source : Path)
  | compiled (artifacts : Path)
  | noSources (extension : String) (source : Path)
  | startedCompiler (sources : Nat) (program : Path)
  | repeatedContract (name source : String)
  | wroteArtifact (path : Path)
  | generating (fileName : String)
  | summarized (contract : String) (summary : Abi.Summary)
  | usesUnmapped (contract function : String)
  | overloadedFunction (contract function : String)
  | generated (fileName : String)
  | skipped (artifact : Path) (reason : String)
  | noArtifacts (extension : String) (directory : Path)
  | finished (written failed : Nat)
  deriving DecidableEq, Repr

namespace Notice

def level : Notice → Level
  | ignoredItem .. | unmappedType .. | loadedManifest .. | startedCompiler .. | wroteArtifact ..
  | summarized .. | usesUnmapped .. => .debug
  | compiling .. | compiled .. | generating .. | generated .. | finished .. => .info
  | noSources .. | repeatedContract .. | overloadedFunction .. | skipped .. | noArtifacts .. => .warn

/-- The colour of a notice: what was done is mint, warnings are yellow, the rest is grey. -/
def colour (n : Notice) : Colour :=
  match n.level, n with
  | .warn, _ => .yellow
  | _, .generated .. | _, .finished .. => .mint
  | _, _ => .grey

def text : Notice → String
  | ignoredItem index error => "ignoring abi item #" ++ Nat.repr index ++ ": " ++ error.message
  | unmappedType base =>
    "no host type for abi type `" ++ base ++ "`, falling back to unknown"
  | loadedManifest path => "loaded " ++ path.display
  | compiling source => "Compiling contracts in " ++ source.display ++ "..."
  | compiled artifacts => "Compiled contracts into " ++ artifacts.display
  | noSources extension source => "no ." ++ extension ++ " files found in " ++ source.display
  | startedCompiler sources program =>
    "compiling " ++ Nat.repr sources ++ " source file(s) with " ++ program.display
  | repeatedContract name source =>
    "contract " ++ name ++ " is defined more than once, keeping " ++ source
  | wroteArtifact path => "wrote " ++ path.display
  | generating fileName => "Generating " ++ fileName ++ "..."
  | summarized contract summary => contract ++ ": " ++ summary.describe
  | usesUnmapped contract function =>
    contract ++ "." ++ function ++ " uses types without a mapping"
  | overloadedFunction contract function =>
    contract ++ "." ++ function ++ " is overloaded, only its last declaration is bound"
  | generated fileName => "Generated " ++ fileName
  | skipped artifact reason => "skipping " ++ artifact.display ++ ": " ++ reason
  | noArtifacts extension directory =>
    "no ." ++ extension ++ " artifacts found in " ++ directory.display
  | finished written failed =>
    "Generated " ++ Nat.repr written ++ " binding(s), skipped " ++ Nat.repr failed

/-- The wording of a notice in its colour. -/
def message (n : Notice) : String := n.colour.paint n.text

/-- What reading a document has to tell. -/
def ofDocument (d : Abi.Document) : List Notice :=
  d.misshapen.map fun (index, error) => ignoredItem index error

end Notice

end ContractBindings
