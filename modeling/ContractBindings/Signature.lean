import ContractBindings.Abi.Document
import ContractBindings.HostType
import ContractBindings.Keccak
import ContractBindings.Text.Utf8

/-!
# Call signatures

The typed signature of a function: host types for its parameters and outputs, its spelling in the
contract's own types, and the selector, which is the start of that spelling's hash.

A function without outputs returns the transaction, one with a single output that value, and one with
several outputs all of them in order.
-/

namespace ContractBindings

open Text Abi

/-- A named slot of a parameter list or of a tuple.  The name may be empty. -/
structure Parameter where
  name : String
  type : HostType
  deriving DecidableEq, Repr, Inhabited

def Parameter.ofArgument (position : HostType.Position) (a : Argument) : Parameter :=
  ⟨a.name, HostType.resolve a.type position⟩

/-- What a call resolves to. -/
inductive Returns where
  | transaction
  | bare (type : HostType)
  | tuple (outputs : List Parameter)
  deriving DecidableEq, Repr, Inhabited

namespace Returns

/-- The number of outputs decides what a call resolves to. -/
def ofOutputs : List Argument → Returns
  | [] => transaction
  | [output] => bare (HostType.resolve output.type .output)
  | outputs => tuple (outputs.map (Parameter.ofArgument .output))

/-- Whether an output has no mapping. -/
def hasUnknown : Returns → Bool
  | transaction => false
  | bare type => type.isUnknown
  | tuple outputs => outputs.any fun output => output.type.isUnknown

end Returns

structure Signature where
  name : String
  parameters : List Parameter
  returns : Returns
  mutability : Mutability
  /-- The spelling in the contract's types, such as `transfer(address,uint256)`. -/
  canonical : String
  selector : List UInt8
  deriving DecidableEq, Repr, Inhabited

namespace Signature

/-- The spelling of a function in the contract's types. -/
def canonicalOf (f : Function) : String :=
  f.name ++ "(" ++ joined "," (canonicalTypes f.inputs) ++ ")"

/-- The first four bytes of the hash of a spelling. -/
def selectorOf (canonical : String) : List UInt8 := (Keccak.hash (encode canonical)).take 4

def ofFunction (f : Function) : Signature where
  name := f.name
  parameters := f.inputs.map (Parameter.ofArgument .input)
  returns := Returns.ofOutputs f.outputs
  mutability := f.mutability
  canonical := canonicalOf f
  selector := selectorOf (canonicalOf f)

/-- The signature of an entry; only functions can be called. -/
def ofItem? : Item → Option Signature
  | .function f => some (ofFunction f)
  | _ => none

/-- The signatures of the functions of a document, in order. -/
def ofDocument (d : Document) : List Signature := d.items.filterMap ofItem?

/-- Whether a parameter or an output has no mapping. -/
def hasUnknown (s : Signature) : Bool :=
  s.returns.hasUnknown || s.parameters.any fun p => p.type.isUnknown

end Signature

/--
The bases without a mapping that are met while a document's signatures are made, in order: for every
function those of its inputs, then those of its outputs.
-/
def Abi.Document.unmapped (d : Document) : List String :=
  d.functions.flatMap fun f => (f.inputs ++ f.outputs).filterMap fun a => HostType.unmapped? a.type

end ContractBindings
