import ContractBindings.Decimal.Layout
import ContractBindings.Text.Hex
import ContractBindings.Toml.Basic

/-!
# Scalars in TOML text

Numbers, truth values, dates and times are read from a whole token (`ofToken?`).  Strings are read off
the front of a text; a string over several lines loses the line break behind its opening quotes, and
its line breaks become single characters.
-/

namespace ContractBindings.Toml

open Text Decimal

/-- Reads a value off the front of a text and gives the rest; `none` if the text is not TOML. -/
abbrev Reader (α : Type) := List Char → Option (α × List Char)

/-! ## Numbers -/

/-- The digits of a group, in which single underscores may stand between digits. -/
def ungroup (isDigit : Char → Bool) : List Char → Option (List Char)
  | [] => none
  | [c] => if isDigit c then some [c] else none
  | c :: '_' :: rest => if isDigit c then (ungroup isDigit rest).map (c :: ·) else none
  | c :: rest => if isDigit c then (ungroup isDigit rest).map (c :: ·) else none

/-- The natural that digits of a base spell. -/
def natOfDigits (base : Nat) (cs : List Char) : Nat :=
  cs.foldl (fun n c => base * n + (Hex.value? c).getD 0) 0

/-- A sign and what follows it: `true` for a minus. -/
def splitSign : List Char → Bool × List Char
  | '+' :: rest => (false, rest)
  | '-' :: rest => (true, rest)
  | cs => (false, cs)

/-- The digits of a decimal number without superfluous zeros at the front. -/
def wholeDigits? (cs : List Char) : Option (List Char) :=
  match cs with
  | '0' :: _ :: _ => none
  | cs => ungroup Char.isDigit cs

/-- An integer that fits into 64 bits with a sign. -/
def fit? (n : Int) : Option Toml :=
  if -9223372036854775808 ≤ n ∧ n < 9223372036854775808 then some (.integer n) else none

/-- The integer that a token spells in the given base. -/
def based? (base : Nat) (isDigit : Char → Bool) (cs : List Char) : Option Toml := do
  let digits ← ungroup isDigit cs
  fit? (natOfDigits base digits)

/-- The integer that a token spells. -/
def integer? : List Char → Option Toml
  | '0' :: 'x' :: cs => based? 16 (fun c => (Hex.value? c).isSome) cs
  | '0' :: 'o' :: cs => based? 8 (fun c => '0' ≤ c && c ≤ '7') cs
  | '0' :: 'b' :: cs => based? 2 (fun c => c == '0' || c == '1') cs
  | cs => do
    let (minus, cs) := splitSign cs
    let digits ← wholeDigits? cs
    let n : Int := natOfDigits 10 digits
    fit? (if minus then -n else n)

/-- A character of a group of decimal digits. -/
def isGroupChar (c : Char) : Bool := c.isDigit || c == '_'

/-- The text of the number with these digits; a number beyond the range is refused above zero only. -/
def realText? (minus : Bool) (digits : Nat) (exponent : Int) : Option String :=
  match Binary64.ofDecimal minus digits exponent with
  | some x => some (String.ofList (Layout.plain.write x))
  | none => if minus then some "-inf" else none

/-- The number with a point or an exponent that a token spells. -/
def real? (cs : List Char) : Option Toml := do
  let (minus, cs) := splitSign cs
  if cs = ['i', 'n', 'f'] then some (.real (if minus then "-inf" else "inf"))
  else if cs = ['n', 'a', 'n'] then some (.real "NaN")
  else
    let whole ← wholeDigits? (cs.takeWhile isGroupChar)
    let rest := cs.dropWhile isGroupChar
    let (fraction, rest) ← match rest with
      | '.' :: rest => do
        let digits ← ungroup Char.isDigit (rest.takeWhile isGroupChar)
        some (digits, rest.dropWhile isGroupChar)
      | rest => some ([], rest)
    let (exponent, written) ← match rest with
      | [] => some ((0 : Int), false)
      | e :: rest =>
        if e = 'e' ∨ e = 'E' then do
          let (negative, rest) := splitSign rest
          let digits ← ungroup Char.isDigit rest
          let n : Int := natOfDigits 10 digits
          some (if negative then -n else n, true)
        else none
    if fraction.isEmpty ∧ ¬ written then none
    else
      (realText? minus (natOfDigits 10 (whole ++ fraction)) (exponent - fraction.length)).map .real

/-! ## Dates and times -/

/-- The number that two digits spell. -/
def pair? (a b : Char) : Option Nat :=
  if a.isDigit && b.isDigit then some (natOfDigits 10 [a, b]) else none

def daysIn (year month : Nat) : Nat :=
  if month = 2 then
    if year % 4 = 0 ∧ (year % 100 ≠ 0 ∨ year % 400 = 0) then 29 else 28
  else if month = 4 ∨ month = 6 ∨ month = 9 ∨ month = 11 then 30
  else 31

/-- Reads a date, and gives the rest. -/
def date? : List Char → Option (List Char)
  | a :: b :: c :: d :: '-' :: e :: f :: '-' :: g :: h :: rest => do
    let century ← pair? a b
    let year ← pair? c d
    let month ← pair? e f
    let day ← pair? g h
    if 1 ≤ month ∧ month ≤ 12 ∧ 1 ≤ day ∧ day ≤ daysIn (100 * century + year) month then some rest
    else none
  | _ => none

/-- Reads hours and minutes, and gives the rest. -/
def hourMinute? : List Char → Option (List Char)
  | a :: b :: ':' :: c :: d :: rest => do
    let hour ← pair? a b
    let minute ← pair? c d
    if hour ≤ 23 ∧ minute ≤ 59 then some rest else none
  | _ => none

/-- Reads a time of day, and gives the rest.  A minute may have a sixty-first second. -/
def time? (cs : List Char) : Option (List Char) := do
  match ← hourMinute? cs with
  | ':' :: a :: b :: rest =>
    let second ← pair? a b
    if second ≤ 60 then
      match rest with
      | '.' :: rest =>
        if (rest.takeWhile Char.isDigit).isEmpty then none else some (rest.dropWhile Char.isDigit)
      | rest => some rest
    else none
  | _ => none

/-- Whether a text is nothing or the distance from universal time. -/
def isOffset : List Char → Bool
  | [] => true
  | ['Z'] | ['z'] => true
  | '+' :: rest | '-' :: rest => hourMinute? rest == some []
  | _ => false

/-- Whether a token spells a date, a time, or both. -/
def isDateTime (cs : List Char) : Bool :=
  match date? cs with
  | some [] => true
  | some (c :: rest) =>
    (c == 'T' || c == 't' || c == ' ') &&
      match time? rest with
      | some rest => isOffset rest
      | none => false
  | none => time? cs == some []

/-- The value that a token spells. -/
def ofToken? (cs : List Char) : Option Toml :=
  if cs = ['t', 'r', 'u', 'e'] then some (.boolean true)
  else if cs = ['f', 'a', 'l', 's', 'e'] then some (.boolean false)
  else if isDateTime cs then some .dateTime
  else
    match integer? cs with
    | some value => some value
    | none => real? cs

def isTokenChar (c : Char) : Bool :=
  c.isAlphanum || c == '+' || c == '-' || c == '_' || c == '.' || c == ':'

/-- Splits the token off the front of a text.  A date and a time may have a blank between them. -/
def splitToken (cs : List Char) : List Char × List Char :=
  let token := cs.takeWhile isTokenChar
  match cs.dropWhile isTokenChar with
  | ' ' :: c :: rest =>
    if date? token = some [] ∧ c.isDigit then
      (token ++ ' ' :: (c :: rest).takeWhile isTokenChar, (c :: rest).dropWhile isTokenChar)
    else (token, ' ' :: c :: rest)
  | rest => (token, rest)

/-- Reads a number, a truth value, a date or a time. -/
def bareValue : Reader Toml := fun cs =>
  let (token, rest) := splitToken cs
  (ofToken? token).map fun value => (value, rest)

/-! ## Strings -/

/-- A character that stands for itself in a comment or, unless it is a delimiter, in a string. -/
def isPlain (c : Char) : Bool := c == '\t' || (0x20 ≤ c.toNat && c.toNat ≠ 0x7F)

/-- The character with a number, if it is one. -/
def scalar? (n : Nat) : Option Char := if n.isValidChar then some (Char.ofNat n) else none

/-- Reads the hexadecimal digits of an escape. -/
def hexEscape (count : Nat) : Reader Char := fun cs =>
  let digits := cs.take count
  if digits.length = count ∧ digits.all (fun c => (Hex.value? c).isSome) then
    (scalar? (natOfDigits 16 digits)).map fun c => (c, cs.drop count)
  else none

/-- Reads an escape behind its backslash. -/
def escapeSequence : Reader Char
  | 'b' :: rest => some ('\x08', rest)
  | 't' :: rest => some ('\t', rest)
  | 'n' :: rest => some ('\n', rest)
  | 'f' :: rest => some ('\x0c', rest)
  | 'r' :: rest => some ('\r', rest)
  | '"' :: rest => some ('"', rest)
  | '\\' :: rest => some ('\\', rest)
  | 'u' :: rest => hexEscape 4 rest
  | 'U' :: rest => hexEscape 8 rest
  | _ => none

/-- Reads a string on one line up to its closing quote. -/
def basicChars : Nat → Reader (List Char)
  | 0, _ | _, [] => none
  | budget + 1, c :: rest =>
    if c = '"' then some ([], rest)
    else if c = '\\' then do
      let (d, rest) ← escapeSequence rest
      let (ds, rest) ← basicChars budget rest
      some (d :: ds, rest)
    else if isPlain c then (basicChars budget rest).map fun (ds, rest) => (c :: ds, rest)
    else none

/-- Reads a string without escapes on one line up to its closing quote. -/
def literalChars : Reader (List Char)
  | [] => none
  | c :: rest =>
    if c = '\'' then some ([], rest)
    else if isPlain c then (literalChars rest).map fun (ds, rest) => (c :: ds, rest)
    else none

/-- The text behind a line break at its front. -/
def newline? : List Char → Option (List Char)
  | '\n' :: rest => some rest
  | '\r' :: '\n' :: rest => some rest
  | _ => none

/-- A blank within a line. -/
def isBlank (c : Char) : Bool := c == ' ' || c == '\t'

/-- The text behind the blanks at its front. -/
def skipBlanks (cs : List Char) : List Char := cs.dropWhile isBlank

/-- The text behind the blanks and line breaks at its front. -/
def skipLines : Nat → List Char → List Char
  | 0, cs => cs
  | budget + 1, cs =>
    match newline? (skipBlanks cs) with
    | some rest => skipLines budget rest
    | none => skipBlanks cs

/--
Closes a string over several lines at a run of quotes: one or two quotes belong to the string, and as
many may stand before the closing three.  `none` in the first place: the string goes on.
-/
def closing (quote : Char) (cs : List Char) : Option Bool × List Char × List Char :=
  let run := cs.takeWhile (· == quote)
  let rest := cs.dropWhile (· == quote)
  if run.length < 3 then (none, run, rest)
  else if run.length ≤ 5 then (some true, run.drop 3, rest)
  else (some false, [], rest)

/-- Reads a string over several lines up to its closing quotes. -/
def multilineBasicChars : Nat → Reader (List Char)
  | 0, _ | _, [] => none
  | budget + 1, c :: rest =>
    if c = '"' then
      match closing '"' (c :: rest) with
      | (some true, quotes, rest) => some (quotes, rest)
      | (some false, _, _) => none
      | (none, quotes, rest) =>
        (multilineBasicChars budget rest).map fun (ds, rest) => (quotes ++ ds, rest)
    else if c = '\\' then
      match newline? (skipBlanks rest) with
      | some next => multilineBasicChars budget (skipLines (budget + 1) next)
      | none => do
        let (d, rest) ← escapeSequence rest
        let (ds, rest) ← multilineBasicChars budget rest
        some (d :: ds, rest)
    else
      match newline? (c :: rest) with
      | some next => (multilineBasicChars budget next).map fun (ds, rest) => ('\n' :: ds, rest)
      | none =>
        if isPlain c then (multilineBasicChars budget rest).map fun (ds, rest) => (c :: ds, rest)
        else none

/-- Reads a string without escapes over several lines up to its closing quotes. -/
def multilineLiteralChars : Nat → Reader (List Char)
  | 0, _ | _, [] => none
  | budget + 1, c :: rest =>
    if c = '\'' then
      match closing '\'' (c :: rest) with
      | (some true, quotes, rest) => some (quotes, rest)
      | (some false, _, _) => none
      | (none, quotes, rest) =>
        (multilineLiteralChars budget rest).map fun (ds, rest) => (quotes ++ ds, rest)
    else
      match newline? (c :: rest) with
      | some next => (multilineLiteralChars budget next).map fun (ds, rest) => ('\n' :: ds, rest)
      | none =>
        if isPlain c then (multilineLiteralChars budget rest).map fun (ds, rest) => (c :: ds, rest)
        else none

/-- The text behind a line break, if there is one. -/
def dropNewline (cs : List Char) : List Char := (newline? cs).getD cs

/-- Reads a string of any kind. -/
def stringValue (budget : Nat) (cs : List Char) : Option (String × List Char) :=
  let result := match cs with
    | '"' :: '"' :: '"' :: rest => multilineBasicChars budget (dropNewline rest)
    | '\'' :: '\'' :: '\'' :: rest => multilineLiteralChars budget (dropNewline rest)
    | '"' :: rest => basicChars budget rest
    | '\'' :: rest => literalChars rest
    | _ => none
  result.map fun (ds, rest) => (String.ofList ds, rest)

end ContractBindings.Toml
