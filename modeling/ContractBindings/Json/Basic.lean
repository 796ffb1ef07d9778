import ContractBindings.Decimal.Layout
import ContractBindings.Shape

/-!
# JSON values

Objects keep the order of their keys.  A number is an exact integer or a binary64 number, and the two
stay apart: `1` and `1.0` are different values.
-/

namespace ContractBindings

open Decimal

inductive Json.Number where
  | integer (value : Int)
  | real (value : Binary64)
  deriving DecidableEq, Repr

inductive Json where
  | null
  | bool (value : Bool)
  | number (value : Json.Number)
  | string (value : String)
  | array (elements : List Json)
  | object (fields : List (String × Json))
  deriving BEq, Repr, Inhabited

namespace Json

/-- The fields of an object, in order. -/
abbrev Fields := List (String × Json)

def Number.chars : Number → List Char
  | integer n => (toString n).toList
  | real x => Layout.exchange.write x

/-- What a value is found to be. -/
def found : Json → Found
  | null => .null
  | bool b => .boolean b
  | number (.integer n) => .integer n
  | number (.real x) => .real (String.ofList (Layout.exchange.write x))
  | string s => .string s
  | array _ => .sequence
  | object _ => .map

/-- Sets the value of a key: in place if the key is present, at the end otherwise. -/
def Fields.set (key : String) (value : Json) : Fields → Fields
  | [] => [(key, value)]
  | (k, v) :: rest => if k = key then (k, value) :: rest else (k, v) :: Fields.set key value rest

def Fields.get? (key : String) (fields : Fields) : Option Json := fields.lookup key

end Json

end ContractBindings
