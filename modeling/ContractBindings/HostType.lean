/-!
# Host types

The types of the generated bindings, and the mapping of ABI types to them.  A parameter accepts
convenient values, an output is normalised, so bytes and addresses resolve to different host types in
the two positions (`Position`).

`resolve` strips the trailing `[]` of a type, classifies the base, and wraps the result in as many
arrays.  A base of no class resolves to `unknown`.
-/

namespace ContractBindings

/-- The position of a type in a call. -/
inductive HostType.Position where
  | input
  | output
  deriving DecidableEq, Repr

/-- A type of the generated bindings. -/
inductive HostType where
  /-- An integer of any size. -/
  | integer
  /-- Whatever is accepted as bytes. -/
  | bytesLike
  /-- Whatever resolves to an address. -/
  | addressLike
  /-- A normalised text of hexadecimal digits. -/
  | hexString
  | string
  | bool
  /-- The type of values without a mapping. -/
  | unknown
  | array (element : HostType)
  deriving DecidableEq, Repr, Inhabited

namespace HostType

def render : HostType → String
  | integer => "bigint"
  | bytesLike => "BytesLike"
  | addressLike => "AddressLike"
  | hexString => "`0x$\x7bstring\x7d`"
  | string => "string"
  | bool => "boolean"
  | unknown => "unknown"
  | array element => element.render ++ "[]"

/-- The name that a type needs from the runtime module. -/
def import? : HostType → Option String
  | bytesLike => some "BytesLike"
  | addressLike => some "AddressLike"
  | array element => element.import?
  | _ => none

/-- Whether the innermost type has no mapping. -/
def isUnknown : HostType → Bool
  | unknown => true
  | array element => element.isUnknown
  | _ => false

/-- A type inside the given number of arrays. -/
def nest (type : HostType) : Nat → HostType
  | 0 => type
  | depth + 1 => array (nest type depth)

/-! ## ABI types -/

/-- The classes of base types that have a mapping. -/
inductive Class where
  | integer
  | bytes
  | string
  | bool
  | address
  deriving DecidableEq, Repr

/-- The host type of a class. -/
def ofClass : Class → Position → HostType
  | .integer, _ => integer
  | .bytes, .input => bytesLike
  | .bytes, .output => hexString
  | .string, _ => string
  | .bool, _ => bool
  | .address, .input => addressLike
  | .address, .output => hexString

/-- Whether a text is `word` followed by characters that all pass the test. -/
def isWordThen (word : List Char) (test : Char → Bool) (base : List Char) : Bool :=
  match word.isPrefixOf? base with
  | some rest => rest.all test
  | none => false

/-- The text without one leading `u`. -/
def dropUnsigned : List Char → List Char
  | 'u' :: rest => rest
  | cs => cs

/-- The class of a base type. -/
def class? (base : List Char) : Option Class :=
  if isWordThen ['i', 'n', 't'] Char.isDigit (dropUnsigned base) then some .integer
  else if isWordThen ['f', 'i', 'x', 'e', 'd'] (fun c => c.isDigit || c == 'x')
      (dropUnsigned base) then some .integer
  else if isWordThen ['b', 'y', 't', 'e', 's'] Char.isDigit base then some .bytes
  else if base = ['s', 't', 'r', 'i', 'n', 'g'] then some .string
  else if base = ['b', 'o', 'o', 'l'] then some .bool
  else if base = ['a', 'd', 'd', 'r', 'e', 's', 's'] then some .address
  else none

/-- Splits the leading `][` pairs off a reversed type: their number and what is left. -/
def splitArrays : List Char → Nat × List Char
  | ']' :: '[' :: rest => let (depth, base) := splitArrays rest; (depth + 1, base)
  | base => (0, base)

/-- The number of trailing `[]` of a type, and its base. -/
def split (type : String) : Nat × List Char :=
  let (depth, base) := splitArrays type.toList.reverse
  (depth, base.reverse)

def ofBase (base : List Char) (position : Position) : HostType :=
  match class? base with
  | some c => ofClass c position
  | none => unknown

/-- The host type of an ABI type. -/
def resolve (type : String) (position : Position) : HostType :=
  let (depth, base) := split type
  (ofBase base position).nest depth

/-- The base of a type that has no mapping. -/
def unmapped? (type : String) : Option String :=
  let (_, base) := split type
  match class? base with
  | some _ => none
  | none => some (String.ofList base)

end HostType

end ContractBindings
