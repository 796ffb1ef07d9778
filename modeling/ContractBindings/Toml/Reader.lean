import ContractBindings.Toml.Scalar
import ContractBindings.Toml.Section

/-!
# Reading TOML

`parse` reads a document as its table; a text that is not TOML gives nothing.  Arrays and inline tables
nest at most 79 deep, and a dotted key has at most 79 parts.
-/

namespace ContractBindings.Toml

/-- How deep values may nest, and how many parts a dotted key may have. -/
def maxDepth : Nat := 79

/-! ## Keys -/

def isKeyChar (c : Char) : Bool := c.isAlphanum || c == '-' || c == '_'

/-- Reads one part of a key. -/
def keyPart (budget : Nat) : Reader String
  | '"' :: rest => (basicChars budget rest).map fun (ds, rest) => (String.ofList ds, rest)
  | '\'' :: rest => (literalChars rest).map fun (ds, rest) => (String.ofList ds, rest)
  | cs =>
    let part := cs.takeWhile isKeyChar
    if part.isEmpty then none else some (String.ofList part, cs.dropWhile isKeyChar)

/-- Reads the parts of a dotted key with the blanks around them. -/
def keyParts : Nat → Reader (List String)
  | 0, _ => none
  | budget + 1, cs => do
    let (part, rest) ← keyPart (budget + 1) (skipBlanks cs)
    match skipBlanks rest with
    | '.' :: rest => do
      let (parts, rest) ← keyParts budget rest
      some (part :: parts, rest)
    | rest => some ([part], rest)

/-- Reads a dotted key: the parts before the last, and the last. -/
def dottedKey (budget : Nat) (cs : List Char) : Option (List String × String × List Char) := do
  let (parts, rest) ← keyParts budget cs
  let last ← parts.getLast?
  if parts.length ≤ maxDepth then some (parts.dropLast, last, rest) else none

/-! ## Values -/

/-- The text behind a comment at its front. -/
def skipComment (cs : List Char) : Option (List Char) :=
  match cs.dropWhile isPlain with
  | [] => some []
  | rest => if (newline? rest).isSome then some rest else none

/-- The text behind blanks, line breaks and comments. -/
def skipFiller : Nat → List Char → Option (List Char)
  | 0, _ => none
  | budget + 1, cs =>
    match skipBlanks cs with
    | '#' :: rest => do
      let rest ← skipComment rest
      skipFiller budget rest
    | rest =>
      match newline? rest with
      | some rest => skipFiller budget rest
      | none => some rest

/-- Reads the elements of an array up to its closing bracket. -/
def elements (item : Reader Toml) : Nat → Reader (List Toml)
  | 0, _ => none
  | budget + 1, cs => do
    let cs ← skipFiller (budget + 1) cs
    match cs with
    | ']' :: rest => some ([], rest)
    | cs => do
      let (x, rest) ← item cs
      let rest ← skipFiller (budget + 1) rest
      match rest with
      | ',' :: rest => do
        let (xs, rest) ← elements item budget rest
        some (x :: xs, rest)
      | ']' :: rest => some ([x], rest)
      | _ => none

/-- Reads a key and its value. -/
def assignment (item : Reader Toml) (budget : Nat) (cs : List Char) :
    Option ((List String × String × Toml) × List Char) := do
  let (path, key, rest) ← dottedKey budget cs
  match rest with
  | '=' :: rest => do
    let (value, rest) ← item (skipBlanks rest)
    some ((path, key, value), rest)
  | _ => none

/-- Reads the assignments of an inline table up to its closing brace. -/
def inlineEntries (item : Reader Toml) : Nat → Draft → Reader Draft
  | 0, _, _ => none
  | budget + 1, d, cs => do
    let ((path, key, value), rest) ← assignment item (budget + 1) cs
    let d ← d.assign path key value
    match skipBlanks rest with
    | ',' :: rest => inlineEntries item budget d rest
    | '\x7d' :: rest => some (d, rest)
    | _ => none

/-- Reads a value whose elements are read by `nested`; `none` if none may stand deeper. -/
def valueWith (budget : Nat) (nested : Option (Reader Toml)) : Reader Toml := fun cs =>
  match cs with
  | '"' :: _ | '\'' :: _ => (stringValue budget cs).map fun (s, rest) => (.string s, rest)
  | '[' :: rest => do
    let item ← nested
    let (xs, rest) ← elements item budget rest
    some (.array xs, rest)
  | '\x7b' :: rest => do
    let item ← nested
    match skipBlanks rest with
    | '\x7d' :: rest => some (.table [], rest)
    | rest => do
      let (d, rest) ← inlineEntries item budget Draft.empty rest
      some (.table d.finish, rest)
  | cs => bareValue cs

/-- Reads a value in which arrays and inline tables nest at most `depth` deep. -/
def value (budget : Nat) : Nat → Reader Toml
  | 0 => valueWith budget none
  | depth + 1 => valueWith budget (some (value budget depth))

/-! ## Documents -/

/-- A document while it is read: its table, and where the assignments of the last header go. -/
structure Document where
  root : Draft
  openTable : List String

def Document.empty : Document := ⟨Draft.empty, []⟩

/-- The text behind the end of a line, with the blanks and the comment before it. -/
def endOfLine (cs : List Char) : Option (List Char) := do
  let rest ← match skipBlanks cs with
    | '#' :: rest => skipComment rest
    | rest => some rest
  match rest with
  | [] => some []
  | rest => newline? rest

/-- Reads a line that is a header. -/
def header (budget : Nat) (d : Document) : Reader Document
  | '[' :: '[' :: cs => do
    let (path, key, rest) ← dottedKey budget cs
    match rest with
    | ']' :: ']' :: rest => do
      let root ← d.root.defineElement path key
      some (⟨root, path ++ [key]⟩, rest)
    | _ => none
  | '[' :: cs => do
    let (path, key, rest) ← dottedKey budget cs
    match rest with
    | ']' :: rest => do
      let root ← d.root.define path key
      some (⟨root, path ++ [key]⟩, rest)
    | _ => none
  | _ => none

/-- Reads a line that is an assignment. -/
def assignmentLine (budget : Nat) (d : Document) : Reader Document := fun cs => do
  let ((path, key, v), rest) ← assignment (value budget maxDepth) budget cs
  let root ← Draft.change false (Draft.assign path key v) d.openTable d.root
  some (⟨root, d.openTable⟩, rest)

def lines (budget : Nat) : Nat → Document → List Char → Option Document
  | 0, _, _ => none
  | left + 1, d, cs =>
    match skipBlanks cs with
    | [] => some d
    | '[' :: rest => do
      let (d, rest) ← header budget d ('[' :: rest)
      let rest ← endOfLine rest
      lines budget left d rest
    | c :: rest =>
      if c = '#' ∨ c = '\n' ∨ c = '\r' then do
        let rest ← endOfLine (c :: rest)
        lines budget left d rest
      else do
        let (d, rest) ← assignmentLine budget d (c :: rest)
        let rest ← endOfLine rest
        lines budget left d rest

/-- The text without a byte order mark at its front. -/
def dropMark : List Char → List Char
  | '\uFEFF' :: rest => rest
  | cs => cs

/-- Reads a document; `none` if the text is not TOML. -/
def parse (text : String) : Option Entries :=
  let cs := dropMark text.toList
  let budget := cs.length + 2
  (lines budget budget Document.empty cs).map fun d => d.root.finish

end ContractBindings.Toml
