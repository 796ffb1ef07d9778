import ContractBindings.Json.Basic
import ContractBindings.Text.Hex

/-!
# Writing JSON

`compact` writes a value without blanks.  `pretty` puts every element and every member on a line of its
own, indented once more than its container; empty containers are closed at once.  Both are `chars` with
another `Spacing`.

Strings keep every character except the quote, the backslash and the control characters below U+0020.
-/

namespace ContractBindings.Json

open Text

/-- How a character is written inside a string. -/
def escapeChar (c : Char) : List Char :=
  if c = '"' then ['\\', '"']
  else if c = '\\' then ['\\', '\\']
  else if c = '\x08' then ['\\', 'b']
  else if c = '\x0c' then ['\\', 'f']
  else if c = '\n' then ['\\', 'n']
  else if c = '\r' then ['\\', 'r']
  else if c = '\t' then ['\\', 't']
  else if c.toNat < 0x20 then
    ['\\', 'u', '0', '0', Hex.digit (c.toNat / 16), Hex.digit (c.toNat % 16)]
  else [c]

def stringText (s : String) : List Char := '"' :: s.toList.flatMap escapeChar ++ ['"']

def boolText (b : Bool) : List Char := if b then ['t', 'r', 'u', 'e'] else ['f', 'a', 'l', 's', 'e']

/-- The blanks that a text is written with. -/
inductive Spacing where
  /-- None. -/
  | compact
  /-- Every element and every member on a line of its own, indented once for each container around it. -/
  | lines (indent : List Char) (depth : Nat)
  deriving DecidableEq, Repr

namespace Spacing

def inner : Spacing → Spacing
  | compact => compact
  | lines indent depth => lines indent (depth + 1)

/-- What stands before an element, a member and the end of a container that is not empty. -/
def lead : Spacing → List Char
  | compact => []
  | lines indent depth => '\n' :: (List.replicate depth indent).flatten

/-- What stands behind the colon of a member. -/
def gap : Spacing → List Char
  | compact => []
  | lines _ _ => [' ']

end Spacing

mutual

def chars (sp : Spacing) : Json → List Char
  | .null => ['n', 'u', 'l', 'l']
  | .bool b => boolText b
  | .number n => n.chars
  | .string s => stringText s
  | .array [] => ['[', ']']
  | .array (x :: xs) => '[' :: sp.inner.lead ++ chars sp.inner x ++ elementChars sp xs
  | .object [] => ['\x7b', '\x7d']
  | .object ((k, v) :: ms) =>
    '\x7b' :: sp.inner.lead ++ stringText k ++ ':' :: sp.gap ++ chars sp.inner v ++ memberChars sp ms

/-- The elements behind another one, and the closing bracket. -/
def elementChars (sp : Spacing) : List Json → List Char
  | [] => sp.lead ++ [']']
  | x :: xs => ',' :: sp.inner.lead ++ chars sp.inner x ++ elementChars sp xs

/-- The members behind another one, and the closing brace. -/
def memberChars (sp : Spacing) : List (String × Json) → List Char
  | [] => sp.lead ++ ['\x7d']
  | (k, v) :: ms =>
    ',' :: sp.inner.lead ++ stringText k ++ ':' :: sp.gap ++ chars sp.inner v ++ memberChars sp ms

end

/-- Writes a value without blanks. -/
def compact (v : Json) : String := String.ofList (chars .compact v)

/-- Writes a value over several lines, with the given indentation. -/
def pretty (indent : String) (v : Json) : String := String.ofList (chars (.lines indent.toList 0) v)

end ContractBindings.Json
