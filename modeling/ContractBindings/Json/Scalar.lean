import ContractBindings.Json.Basic
import ContractBindings.Json.Fault
import ContractBindings.Text.Hex

/-!
# Scalars in JSON text

Readers of the names `null`, `true` and `false`, of strings and of numbers.  Each starts behind the
character that announced the scalar, except `number`, which starts at the first digit.

An integer literal within 64 bits is an exact integer.  Every other number becomes a binary64 number
by the quick rule: as many digits as fit into 64 bits are gathered, and the power of ten that is left
is applied to their rounded value.
-/

namespace ContractBindings.Json.Reader

open Text Decimal

/-- Reads the rest of a name. -/
def keyword : List Char → Reader Unit
  | [], cs => .ok ((), cs)
  | _ :: _, [] => .error (.atEnd .eofValue)
  | k :: ks, c :: cs => if c = k then keyword ks cs else .error (.first .expectedIdent (c :: cs))

/-! ## Strings -/

/-- The character that a one-letter escape stands for. -/
def simpleEscape? : Char → Option Char
  | '"' => some '"'
  | '\\' => some '\\'
  | '/' => some '/'
  | 'b' => some '\x08'
  | 'f' => some '\x0c'
  | 'n' => some '\n'
  | 'r' => some '\r'
  | 't' => some '\t'
  | _ => none

/-- The number that four hexadecimal digits spell. -/
def hexDigits? (a b c d : Char) : Option Nat := do
  let a ← Hex.value? a
  let b ← Hex.value? b
  let c ← Hex.value? c
  let d ← Hex.value? d
  pure (4096 * a + 256 * b + 16 * c + d)

/-- A fault in four hexadecimal digits: four bytes count as read, unless the text ends before. -/
def hexFault (cs : List Char) : Fault :=
  if utf8Length cs < 4 then .atEnd .eofString else ⟨.invalidEscape, utf8Length cs - 4⟩

/-- Reads four hexadecimal digits. -/
def hexEscape : Reader Nat
  | a :: b :: c :: d :: rest =>
    match hexDigits? a b c d with
    | some n => .ok (n, rest)
    | none => .error (hexFault (a :: b :: c :: d :: rest))
  | cs => .error (hexFault cs)

/-- A number of the first half of a surrogate pair. -/
def isLeading (n : Nat) : Bool := 0xD800 ≤ n && n ≤ 0xDBFF

/-- A number of the second half of a surrogate pair. -/
def isTrailing (n : Nat) : Bool := 0xDC00 ≤ n && n ≤ 0xDFFF

/-- Reads the second half of a surrogate pair. -/
def trailingEscape (leading : Nat) : Reader Char
  | '\\' :: 'u' :: cs => do
    let (trailing, rest) ← hexEscape cs
    if isTrailing trailing then
      .ok (Char.ofNat (0x10000 + (leading - 0xD800) * 0x400 + (trailing - 0xDC00)), rest)
    else .error (.before .loneSurrogate rest)
  | [] => .error (.atEnd .eofString)
  | ['\\'] => .error (.atEnd .eofString)
  | '\\' :: cs => .error (.first .unfinishedSurrogate cs)
  | cs => .error (.first .unfinishedSurrogate cs)

/-- Reads an escape, behind its backslash. -/
def escapeSequence : Reader Char
  | [] => .error (.atEnd .eofString)
  | 'u' :: cs => do
    let (n, rest) ← hexEscape cs
    if isTrailing n then .error (.before .loneSurrogate rest)
    else if isLeading n then trailingEscape n rest
    else .ok (Char.ofNat n, rest)
  | c :: cs =>
    match simpleEscape? c with
    | some d => .ok (d, cs)
    | none => .error (.first .invalidEscape (c :: cs))

/--
Reads the characters of a string up to its closing quote.  The budget bounds their number; the
length of the text is always enough.
-/
def stringChars : Nat → Reader (List Char)
  | 0, _ => .error (.atEnd .eofString)
  | _ + 1, [] => .error (.atEnd .eofString)
  | budget + 1, c :: cs =>
    if c = '"' then .ok ([], cs)
    else if c = '\\' then do
      let (d, rest) ← escapeSequence cs
      let (ds, rest) ← stringChars budget rest
      .ok (d :: ds, rest)
    else if c.toNat < 0x20 then .error (.before .controlCharacter cs)
    else do
      let (ds, rest) ← stringChars budget cs
      .ok (c :: ds, rest)

/-- Reads a string, behind its opening quote. -/
def stringLiteral (budget : Nat) : Reader String := fun cs => do
  let (ds, rest) ← stringChars budget cs
  .ok (String.ofList ds, rest)

/-! ## Numbers -/

/-- The digits at the front of a text. -/
def digitsOf (cs : List Char) : List Nat := (cs.takeWhile Char.isDigit).map fun c => c.toNat - 48

def afterDigits (cs : List Char) : List Char := cs.dropWhile Char.isDigit

/-- Reads the digits before the point: a leading zero stands alone. -/
def wholeDigits : Reader (List Nat)
  | [] => .error (.atEnd .eofValue)
  | c :: cs =>
    if c = '0' then
      match cs with
      | [] => .ok ([0], [])
      | d :: ds => if d.isDigit then .error (.first .invalidNumber cs) else .ok ([0], d :: ds)
    else if c.isDigit then .ok (digitsOf (c :: cs), afterDigits (c :: cs))
    else .error (.first .invalidNumber (c :: cs))

/-- Reads at least one digit. -/
def someDigits (cs : List Char) : Except Fault (List Nat × List Char) :=
  match digitsOf cs with
  | [] =>
    if cs.isEmpty then .error (.atEnd .eofValue) else .error (.first .invalidNumber cs)
  | digits => .ok (digits, afterDigits cs)

/-- Reads the point and the digits behind it, if there is a point. -/
def fractionDigits : Reader (Option (List Nat))
  | '.' :: cs => do
    let (digits, rest) ← someDigits cs
    .ok (some digits, rest)
  | cs => .ok (none, cs)

/-- Reads the exponent with its sign (`true` for a minus), if there is one. -/
def exponentDigits : Reader (Option (Bool × List Nat))
  | c :: cs =>
    if c = 'e' ∨ c = 'E' then
      let (minus, cs) := match cs with
        | '+' :: cs => (false, cs)
        | '-' :: cs => (true, cs)
        | cs => (false, cs)
      do
        let (digits, rest) ← someDigits cs
        .ok (some (minus, digits), rest)
    else .ok (none, c :: cs)
  | [] => .ok (none, [])

/-- The first value that does not fit into 64 bits. -/
def wordLimit : Nat := 18446744073709551616

/-- The greatest exponent that is computed with. -/
def exponentLimit : Nat := 2147483647

/--
Gathers the digits before the point: their value as long as it fits into 64 bits, and the number of
digits left out, which raise the exponent.
-/
def gatherWhole (digits : List Nat) : Nat × Nat :=
  digits.foldl
    (fun (n, raised) d =>
      if raised = 0 ∧ 10 * n + d < wordLimit then (10 * n + d, 0) else (n, raised + 1))
    (0, 0)

/-- Gathers digits behind the point until one does not fit; each lowers the exponent by one. -/
def gatherFraction (n : Nat) (exponent : Int) : List Nat → Nat × Int
  | [] => (n, exponent)
  | d :: ds =>
    if 10 * n + d < wordLimit then gatherFraction (10 * n + d) (exponent - 1) ds
    else (n, exponent)

/--
The value of the digits of an exponent; the error is the number of digits behind the one that passes
the limit.
-/
def exponentValue (n : Nat) : List Nat → Except Nat Nat
  | [] => .ok n
  | d :: ds =>
    if 10 * n + d ≤ exponentLimit then exponentValue (10 * n + d) ds else .error ds.length

/-- The number with the given digits and exponent, read before `rest`. -/
def realNumber (negative : Bool) (digits : Nat) (exponent : Int) (rest : List Char) :
    Except Fault Number :=
  match Binary64.ofDecimalQuick negative digits exponent with
  | some x => .ok (.real x)
  | none => .error (.before .numberOutOfRange rest)

/-- The number with the given parts, read before `rest`. -/
def numberOfParts (negative : Bool) (whole : List Nat) (fraction : Option (List Nat))
    (exponent : Option (Bool × List Nat)) (rest : List Char) : Except Fault Number :=
  let (n, raised) := gatherWhole whole
  match fraction, exponent with
  | none, none =>
    if raised = 0 ∧ ¬ negative then .ok (.integer n)
    else if raised = 0 ∧ 0 < n ∧ n ≤ 9223372036854775808 then .ok (.integer (-n))
    else realNumber negative n raised rest
  | _, _ =>
    let (n, shift) := gatherFraction n raised (fraction.getD [])
    match exponent with
    | none => realNumber negative n shift rest
    | some (minus, digits) =>
      match exponentValue 0 digits with
      | .ok e => realNumber negative n (if minus then shift - e else shift + e) rest
      | .error unread =>
        if n = 0 ∨ minus then .ok (.real ⟨negative, Magnitude.zero⟩)
        else .error ⟨.numberOutOfRange, utf8Length rest + unread⟩

/-- Reads the parts of a number, from its first digit on. -/
def numeral : Reader (List Nat × Option (List Nat) × Option (Bool × List Nat)) := fun cs => do
  let (whole, rest) ← wholeDigits cs
  let (fraction, rest) ← fractionDigits rest
  let (exponent, rest) ← exponentDigits rest
  .ok ((whole, fraction, exponent), rest)

/-- Reads a number, from its first digit on. -/
def number (negative : Bool) : Reader Number := fun cs => do
  let ((whole, fraction, exponent), rest) ← numeral cs
  let value ← numberOfParts negative whole fraction exponent rest
  .ok (value, rest)

end ContractBindings.Json.Reader
