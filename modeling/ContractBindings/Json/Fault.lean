import ContractBindings.Shape
import ContractBindings.Text.Utf8

/-!
# Faults in JSON text

A reader that meets a fault knows how much of the text it has not read.  Only for a message is this
turned into a line and a column (`Position`): lines count from one, and the column is the number of
bytes since the last line break.
-/

namespace ContractBindings.Json

open Text

/-- Why a text is not the JSON that was expected. -/
inductive Cause where
  | eofValue
  | eofList
  | eofObject
  | eofString
  | expectedValue
  | expectedIdent
  | expectedColon
  | expectedListCommaOrEnd
  | expectedObjectCommaOrEnd
  | keyNotString
  | trailingComma
  | trailingCharacters
  | invalidNumber
  | numberOutOfRange
  | invalidEscape
  | loneSurrogate
  | unfinishedSurrogate
  | controlCharacter
  | recursionLimit
  /-- The text is JSON, but its data has another shape. -/
  | shape (error : ShapeError)
  deriving DecidableEq, Repr

namespace Cause

def message : Cause → String
  | eofValue => "EOF while parsing a value"
  | eofList => "EOF while parsing a list"
  | eofObject => "EOF while parsing an object"
  | eofString => "EOF while parsing a string"
  | expectedValue => "expected value"
  | expectedIdent => "expected ident"
  | expectedColon => "expected `:`"
  | expectedListCommaOrEnd => "expected `,` or `]`"
  | expectedObjectCommaOrEnd => "expected `,` or `\x7d`"
  | keyNotString => "key must be a string"
  | trailingComma => "trailing comma"
  | trailingCharacters => "trailing characters"
  | invalidNumber => "invalid number"
  | numberOutOfRange => "number out of range"
  | invalidEscape => "invalid escape"
  | loneSurrogate => "lone leading surrogate in hex escape"
  | unfinishedSurrogate => "unexpected end of hex escape"
  | controlCharacter => "control character (\\u0000-\\u001F) found while parsing a string"
  | recursionLimit => "recursion limit exceeded"
  | shape error => error.message

end Cause

/-- A place in a text. -/
structure Position where
  line : Nat
  column : Nat
  deriving DecidableEq, Repr

namespace Position

/-- The place after these bytes. -/
def after (bytes : Bytes) : Position :=
  ⟨1 + bytes.count 0x0A, (bytes.reverse.takeWhile (· != 0x0A)).length⟩

def describe (p : Position) : String :=
  " at line " ++ Nat.repr p.line ++ " column " ++ Nat.repr p.column

end Position

/-- A fault and the number of bytes after it. -/
structure Fault where
  cause : Cause
  unread : Nat
  deriving DecidableEq, Repr

namespace Fault

/-- A fault before the rest of the text. -/
def before (cause : Cause) (rest : List Char) : Fault := ⟨cause, utf8Length rest⟩

/-- A fault at the first byte of the rest, which counts as read, or at the end of the text. -/
def first (cause : Cause) (rest : List Char) : Fault := ⟨cause, utf8Length rest - 1⟩

/-- A fault at the end of the text. -/
def atEnd (cause : Cause) : Fault := ⟨cause, 0⟩

end Fault

/-- An error of reading: data that was already read when its shape failed has no place. -/
structure ReadError where
  cause : Cause
  position : Option Position
  deriving DecidableEq, Repr

namespace ReadError

def ofFault (text : String) (fault : Fault) : ReadError :=
  let bytes := encode text
  ⟨fault.cause, some (Position.after (bytes.take (bytes.length - fault.unread)))⟩

def ofShape (error : ShapeError) : ReadError := ⟨.shape error, none⟩

def message (e : ReadError) : String :=
  e.cause.message ++ (e.position.map Position.describe).getD ""

end ReadError

/-- Reads a value off the front of a text and gives the rest. -/
abbrev Reader (α : Type) := List Char → Except Fault (α × List Char)

/-- JSON's blanks. -/
def isBlank (c : Char) : Bool := c == ' ' || c == '\n' || c == '\r' || c == '\t'

/-- The text from its first character that is not blank. -/
def skipBlanks (cs : List Char) : List Char := cs.dropWhile isBlank

/-- Reads a whole text: after the value only blanks may follow. -/
def Reader.run {α : Type} (reader : Reader α) (text : String) : Except ReadError α :=
  match reader text.toList with
  | .error fault => .error (.ofFault text fault)
  | .ok (value, rest) =>
    match skipBlanks rest with
    | [] => .ok value
    | rest => .error (.ofFault text (.first .trailingCharacters rest))

end ContractBindings.Json
