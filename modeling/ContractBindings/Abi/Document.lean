import ContractBindings.Abi.Decode
import ContractBindings.Json.Reader

/-!
# ABI documents

An artifact is a JSON object with an `abi` array.  A document is that array: it keeps the values as
they were written, and its entries are read from them.  An entry of a wrong shape is unknown, but it
keeps its place.
-/

namespace ContractBindings.Abi

open Text

/-- The field of an artifact that holds the ABI. -/
def abiField : String := "abi"

/-- Why a text is no artifact. -/
inductive DocumentError where
  | malformed (error : Json.ReadError)
  | missingAbi
  deriving DecidableEq, Repr

namespace DocumentError

def message : DocumentError → String
  | malformed error => "malformed document: " ++ error.message
  | missingAbi => "document does not contain an `" ++ abiField ++ "` array"

end DocumentError

/-- An ABI, as the values of its entries in order. -/
structure Document where
  raw : List Json
  deriving BEq, Repr, Inhabited

/-- The entry that a value describes. -/
def Item.ofValue (value : Json) : Item :=
  match Item.ofJson value with
  | .ok item => item
  | .error _ => .unknown

namespace Document

/-- The document in an artifact. -/
def ofJson? : Json → Option Document
  | .object fields =>
    match Json.Fields.get? abiField fields with
    | some (.array items) => some ⟨items⟩
    | _ => none
  | _ => none

/-- Reads an artifact. -/
def ofText (text : String) : Except DocumentError Document :=
  match Json.parse text with
  | .error error => .error (.malformed error)
  | .ok value =>
    match ofJson? value with
    | some document => .ok document
    | none => .error .missingAbi

/-- The entries, one for each value. -/
def items (d : Document) : List Item := d.raw.map Item.ofValue

theorem length_items (d : Document) : d.items.length = d.raw.length := by simp [items]

/-- The places and the errors of the values that have no entry's shape. -/
def misshapen (d : Document) : List (Nat × ShapeError) :=
  d.raw.zipIdx.filterMap fun (value, index) =>
    match Item.ofJson value with
    | .ok _ => none
    | .error error => some (index, error)

def functions (d : Document) : List Function :=
  d.items.filterMap fun
    | .function f => some f
    | _ => none

def events (d : Document) : List Event :=
  d.items.filterMap fun
    | .event e => some e
    | _ => none

def errors (d : Document) : List CustomError :=
  d.items.filterMap fun
    | .error e => some e
    | _ => none

/-- The first constructor. -/
def constructor? (d : Document) : Option Constructor :=
  d.items.findSome? fun
    | .constructor c => some c
    | _ => none

end Document

/-- How many entries of each kind a document has. -/
structure Summary where
  functions : Nat
  mutating : Nat
  events : Nat
  errors : Nat
  constructor : Bool
  deriving DecidableEq, Repr

def Document.summary (d : Document) : Summary where
  functions := d.functions.length
  mutating := (d.functions.filter fun f => f.mutability.isMutating).length
  events := d.events.length
  errors := d.errors.length
  constructor := d.constructor?.isSome

def Summary.describe (s : Summary) : String :=
  Nat.repr s.functions ++ " function(s) (" ++ Nat.repr s.mutating ++ " mutating), "
    ++ Nat.repr s.events ++ " event(s), " ++ Nat.repr s.errors ++ " error(s)"
    ++ (if s.constructor then ", constructor" else "")

end ContractBindings.Abi
