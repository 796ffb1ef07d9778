import ContractBindings.Json.Scalar

/-!
# Reading JSON

`parse` reads a text as one value.  Arrays and objects may nest 127 deep.  Where an object repeats a
key, the last value wins and stands at the first place.

The readers of containers take the reader of what they hold, so that the depth left is the only
recursion between values; a budget, for which the length of the text is enough, bounds the number of
elements.
-/

namespace ContractBindings.Json.Reader

open Text

/-! ## Containers -/

/-- Reads the elements behind another one, up to the closing bracket. -/
def moreElements {α : Type} (item : Reader α) : Nat → Reader (List α)
  | 0, _ => .error (.atEnd .eofList)
  | budget + 1, cs =>
    match skipBlanks cs with
    | [] => .error (.atEnd .eofList)
    | ']' :: rest => .ok ([], rest)
    | ',' :: rest =>
      match skipBlanks rest with
      | [] => .error (.atEnd .eofValue)
      | ']' :: after => .error (.first .trailingComma (']' :: after))
      | next => do
        let (x, rest) ← item next
        let (xs, rest) ← moreElements item budget rest
        .ok (x :: xs, rest)
    | other => .error (.first .expectedListCommaOrEnd other)

/-- Reads the elements of an array, behind its opening bracket. -/
def elements {α : Type} (item : Reader α) (budget : Nat) : Reader (List α) := fun cs =>
  match skipBlanks cs with
  | [] => .error (.atEnd .eofList)
  | ']' :: rest => .ok ([], rest)
  | next => do
    let (x, rest) ← item next
    let (xs, rest) ← moreElements item budget rest
    .ok (x :: xs, rest)

/-- Reads the colon between a key and its value. -/
def colon : Reader Unit := fun cs =>
  match skipBlanks cs with
  | [] => .error (.atEnd .eofObject)
  | ':' :: rest => .ok ((), rest)
  | other => .error (.first .expectedColon other)

/-- Reads a key and its value, behind the opening quote of the key. -/
def member {α : Type} (item : Reader α) (budget : Nat) : Reader (String × α) := fun cs => do
  let (key, rest) ← stringLiteral budget cs
  let ((), rest) ← colon rest
  let (value, rest) ← item rest
  .ok ((key, value), rest)

/-- Reads the members behind another one, up to the closing brace. -/
def moreMembers {α : Type} (item : Reader α) : Nat → Reader (List (String × α))
  | 0, _ => .error (.atEnd .eofObject)
  | budget + 1, cs =>
    match skipBlanks cs with
    | [] => .error (.atEnd .eofObject)
    | '\x7d' :: rest => .ok ([], rest)
    | ',' :: rest =>
      match skipBlanks rest with
      | [] => .error (.atEnd .eofValue)
      | '"' :: next => do
        let (m, rest) ← member item (budget + 1) next
        let (ms, rest) ← moreMembers item budget rest
        .ok (m :: ms, rest)
      | '\x7d' :: after => .error (.first .trailingComma ('\x7d' :: after))
      | other => .error (.first .keyNotString other)
    | other => .error (.first .expectedObjectCommaOrEnd other)

/-- Reads the members of an object, behind its opening brace. -/
def members {α : Type} (item : Reader α) (budget : Nat) : Reader (List (String × α)) := fun cs =>
  match skipBlanks cs with
  | [] => .error (.atEnd .eofObject)
  | '\x7d' :: rest => .ok ([], rest)
  | '"' :: next => do
    let (m, rest) ← member item budget next
    let (ms, rest) ← moreMembers item budget rest
    .ok (m :: ms, rest)
  | other => .error (.first .keyNotString other)

/-- The fields of an object with these members in order. -/
def fieldsOfMembers (ms : List (String × Json)) : Fields :=
  ms.foldl (fun fields (key, value) => fields.set key value) []

/-! ## Values -/

/-- Reads a value whose elements are read by `nested`; `none` if none may stand deeper. -/
def valueWith (budget : Nat) (nested : Option (Reader Json)) : Reader Json := fun cs =>
  match skipBlanks cs with
  | [] => .error (.atEnd .eofValue)
  | c :: rest =>
    if c = 'n' then do
      let ((), rest) ← keyword ['u', 'l', 'l'] rest
      .ok (.null, rest)
    else if c = 't' then do
      let ((), rest) ← keyword ['r', 'u', 'e'] rest
      .ok (.bool true, rest)
    else if c = 'f' then do
      let ((), rest) ← keyword ['a', 'l', 's', 'e'] rest
      .ok (.bool false, rest)
    else if c = '"' then do
      let (s, rest) ← stringLiteral budget rest
      .ok (.string s, rest)
    else if c = '-' then do
      let (n, rest) ← number true rest
      .ok (.number n, rest)
    else if c.isDigit then do
      let (n, rest) ← number false (c :: rest)
      .ok (.number n, rest)
    else if c = '[' then
      match nested with
      | none => .error (.first .recursionLimit (c :: rest))
      | some item => do
        let (xs, rest) ← elements item budget rest
        .ok (.array xs, rest)
    else if c = '\x7b' then
      match nested with
      | none => .error (.first .recursionLimit (c :: rest))
      | some item => do
        let (ms, rest) ← members item budget rest
        .ok (.object (fieldsOfMembers ms), rest)
    else .error (.first .expectedValue (c :: rest))

/-- Reads a value in which containers nest at most `depth` deep. -/
def value (budget : Nat) : Nat → Reader Json
  | 0 => valueWith budget none
  | depth + 1 => valueWith budget (some (value budget depth))

end Reader

/-- How deep containers may nest. -/
def maxDepth : Nat := 127

def parse (text : String) : Except ReadError Json :=
  (Reader.value (text.length + 1) maxDepth).run text

end ContractBindings.Json
