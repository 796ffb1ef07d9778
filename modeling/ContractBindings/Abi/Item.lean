import ContractBindings.Text.Joined

/-!
# Entries of an ABI

The kinds of entries that describe a contract's interface, and the canonical spelling of types in
function signatures, where a tuple is spelled out by its members.
-/

namespace ContractBindings.Abi

open Text

/-- A parameter or an output.  `components` are the members of a `tuple` type. -/
structure Argument where
  type : String
  name : String
  internalType : String
  components : List Argument
  deriving BEq, Repr, Inhabited

/-- The word that a tuple type begins with. -/
def tupleWord : List Char := ['t', 'u', 'p', 'l', 'e']

/-- What follows the word `tuple` in a type that begins with it. -/
def tupleSuffix? (type : String) : Option String :=
  (tupleWord.isPrefixOf? type.toList).map String.ofList

mutual

/-- The spelling of a type in a signature, with the members of tuples in parentheses. -/
def Argument.canonicalType : Argument → String
  | ⟨type, _, _, components⟩ =>
    match tupleSuffix? type with
    | some suffix => "(" ++ joined "," (canonicalTypes components) ++ ")" ++ suffix
    | none => type

def canonicalTypes : List Argument → List String
  | [] => []
  | a :: rest => a.canonicalType :: canonicalTypes rest

end

/-- An argument of an elementary type, whose internal type has the same spelling. -/
def Argument.ofType (type name : String) : Argument := ⟨type, name, type, []⟩

/-- How a call interacts with the state of the chain. -/
inductive Mutability where
  | pure
  | view
  | constant
  | nonpayable
  | payable
  deriving DecidableEq, Repr, Inhabited

namespace Mutability

/-- All kinds, in the order in which they are listed to a reader. -/
def all : List Mutability := [pure, view, constant, nonpayable, payable]

def word : Mutability → String
  | pure => "pure"
  | view => "view"
  | constant => "constant"
  | nonpayable => "nonpayable"
  | payable => "payable"

def ofWord? (word : String) : Option Mutability := all.find? fun m => m.word == word

/-- Whether a call can change the state of the chain. -/
def isMutating : Mutability → Bool
  | nonpayable | payable => true
  | pure | view | constant => false

end Mutability

structure Function where
  name : String
  inputs : List Argument
  outputs : List Argument
  mutability : Mutability
  deriving BEq, Repr, Inhabited

/-- The parameters of a deployment. -/
structure Constructor where
  inputs : List Argument
  mutability : Mutability
  deriving BEq, Repr, Inhabited

structure EventParameter where
  argument : Argument
  indexed : Bool
  deriving BEq, Repr, Inhabited

structure Event where
  name : String
  inputs : List EventParameter
  anonymous : Bool
  deriving BEq, Repr, Inhabited

/-- An error that a call can revert with. -/
structure CustomError where
  name : String
  inputs : List Argument
  deriving BEq, Repr, Inhabited

/-- An entry of an ABI.  An entry that is not understood is `unknown`. -/
inductive Item where
  | function (function : Function)
  | constructor (constructor : Constructor)
  | event (event : Event)
  | error (error : CustomError)
  | fallback (mutability : Mutability)
  | receive (mutability : Mutability)
  | unknown
  deriving BEq, Repr, Inhabited

end ContractBindings.Abi
