import ContractBindings.Json.Reader

/-!
# Skipping JSON

A value that nobody asks for is passed over without being made.  Its nesting is not limited, its numbers
may be of any size, and its strings may hold lone surrogates.
-/

namespace ContractBindings.Compiler.Skip

open Json

inductive Container where
  | list
  | object
  deriving DecidableEq, Repr

namespace Container

/-- The character that closes a container. -/
def close : Container → Char
  | list => ']'
  | object => '\x7d'

/-- The cause when the text ends in a container. -/
def eof : Container → Cause
  | list => .eofList
  | object => .eofObject

/-- The cause when neither a comma nor the end follows an element. -/
def expectedCommaOrEnd : Container → Cause
  | list => .expectedListCommaOrEnd
  | object => .expectedObjectCommaOrEnd

end Container

/-- Skips an escape, behind its backslash. -/
def escape : List Char → Except Fault (List Char)
  | [] => .error (.atEnd .eofString)
  | 'u' :: cs => (Reader.hexEscape cs).map fun (_, rest) => rest
  | c :: cs =>
    match Reader.simpleEscape? c with
    | some _ => .ok cs
    | none => .error (.first .invalidEscape (c :: cs))

/-- Skips a string, behind its opening quote. -/
def string : Nat → List Char → Except Fault (List Char)
  | 0, _ => .error (.atEnd .eofString)
  | _ + 1, [] => .error (.atEnd .eofString)
  | budget + 1, c :: cs =>
    if c = '"' then .ok cs
    else if c = '\\' then do
      let rest ← escape cs
      string budget rest
    else if c.toNat < 0x20 then .error (.before .controlCharacter (c :: cs))
    else string budget cs

/-- Skips a number, from its first digit on.  That digits are missing at the end is a fault of the number. -/
def number (cs : List Char) : Except Fault (List Char) :=
  match Reader.numeral cs with
  | .ok (_, rest) => .ok rest
  | .error ⟨.eofValue, unread⟩ => .error ⟨.invalidNumber, unread⟩
  | .error fault => .error fault

/-- Skips a scalar, or finds that a container opens. -/
def scalar (budget : Nat) (cs : List Char) : Except Fault (Option Container × List Char) :=
  match cs with
  | [] => .error (.atEnd .eofValue)
  | c :: rest =>
    if c = 'n' then (Reader.keyword ['u', 'l', 'l'] rest).map fun (_, rest) => (none, rest)
    else if c = 't' then (Reader.keyword ['r', 'u', 'e'] rest).map fun (_, rest) => (none, rest)
    else if c = 'f' then
      (Reader.keyword ['a', 'l', 's', 'e'] rest).map fun (_, rest) => (none, rest)
    else if c = '"' then (string budget rest).map fun rest => (none, rest)
    else if c = '-' then (number rest).map fun rest => (none, rest)
    else if c.isDigit then (number (c :: rest)).map fun rest => (none, rest)
    else if c = '[' then .ok (some .list, rest)
    else if c = '\x7b' then .ok (some .object, rest)
    else .error (.first .expectedValue (c :: rest))

/-- Skips the key of a member and the colon behind it. -/
def key (budget : Nat) (cs : List Char) : Except Fault (List Char) :=
  match skipBlanks cs with
  | [] => .error (.atEnd .eofObject)
  | '"' :: rest => do
    let rest ← string budget rest
    let ((), rest) ← Reader.colon rest
    .ok rest
  | other => .error (.first .keyNotString other)

/-- What comes next. -/
inductive Place where
  | value
  /-- The first element of a container, or its end. -/
  | opened
  /-- An element of a container. -/
  | element
  /-- What follows an element. -/
  | behind
  deriving DecidableEq, Repr

/-- Skips on from a place inside the open containers, innermost first, to the end of the outermost value. -/
def proceed : Nat → Place → List Container → List Char → Except Fault (List Char)
  | 0, _, _, _ => .error (.atEnd .eofValue)
  | budget + 1, .value, containers, cs => do
    match ← scalar (budget + 1) (skipBlanks cs) with
    | (some container, rest) => proceed budget .opened (container :: containers) rest
    | (none, rest) => proceed budget .behind containers rest
  | _ + 1, .behind, [], cs => .ok cs
  | budget + 1, .behind, container :: containers, cs =>
    match skipBlanks cs with
    | [] => .error (.atEnd container.eof)
    | c :: rest =>
      if c = ',' then proceed budget .element (container :: containers) rest
      else if c = container.close then proceed budget .behind containers rest
      else .error (.first container.expectedCommaOrEnd (c :: rest))
  | _ + 1, .opened, [], cs => .ok cs
  | budget + 1, .opened, container :: containers, cs =>
    match skipBlanks cs with
    | [] => .error (.atEnd container.eof)
    | c :: rest =>
      if c = container.close then proceed budget .behind containers rest
      else proceed budget .element (container :: containers) (c :: rest)
  | budget + 1, .element, containers, cs =>
    match containers with
    | .object :: _ => do
      let rest ← key (budget + 1) cs
      proceed budget .value containers rest
    | _ => proceed budget .value containers cs

/-- Skips a value. -/
def value (budget : Nat) : Reader Unit := fun cs =>
  (proceed (4 * budget + 4) .value [] cs).map fun rest => ((), rest)

end ContractBindings.Compiler.Skip
