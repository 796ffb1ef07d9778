/-!
# Identifiers

Names from outside become identifiers of the generated modules.

* `sanitize` replaces every character that an identifier cannot hold and guards a leading digit;
* `parameterName` also names anonymous parameters and steps around reserved words.
-/

namespace ContractBindings.Text

/-- A character that an identifier may begin with: an ASCII letter, `_` or `$`. -/
def isIdentifierStart (c : Char) : Bool := c.isAlpha || c == '_' || c == '$'

/-- A character that an identifier may go on with: one it may begin with, or an ASCII digit. -/
def isIdentifierPart (c : Char) : Bool := c.isAlphanum || c == '_' || c == '$'

def isIdentifier (s : String) : Bool :=
  match s.toList with
  | [] => false
  | c :: rest => isIdentifierStart c && rest.all isIdentifierPart

/-- A character of a sanitised name: what no identifier holds becomes `_`. -/
def sanitizeChar (c : Char) : Char := if isIdentifierPart c then c else '_'

/-- `_` before a list that is empty or begins with a digit. -/
def guardStart : List Char → List Char
  | [] => ['_']
  | c :: rest => if c.isDigit then '_' :: c :: rest else c :: rest

/-- Turns any name into an identifier. -/
def sanitize (name : String) : String :=
  String.ofList (guardStart (name.toList.map sanitizeChar))

/-- Words that cannot name a parameter. -/
def reservedWords : List String :=
  ["arguments", "await", "break", "case", "catch", "class", "const", "continue", "debugger",
   "default", "delete", "do", "else", "enum", "eval", "export", "extends", "false", "finally",
   "for", "function", "if", "implements", "import", "in", "instanceof", "interface", "let", "new",
   "null", "package", "private", "protected", "public", "return", "static", "super", "switch",
   "this", "throw", "true", "try", "typeof", "var", "void", "while", "with", "yield"]

/-- The name of the parameter at a position: sanitised, with `_` before a reserved word. -/
def parameterName (name : String) (index : Nat) : String :=
  if name.isEmpty then "arg" ++ Nat.repr index
  else
    let identifier := sanitize name
    if reservedWords.contains identifier then "_" ++ identifier else identifier

end ContractBindings.Text
