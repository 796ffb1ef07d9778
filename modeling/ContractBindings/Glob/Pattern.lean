/-!
# Wildcard patterns

A pattern for names: `?` stands for one character, `*` for any number of them, `[abc]`, `[a-z]` and
`[!x]` for one character of a set, and `**` as a whole component for any number of directories.

`tokenize` reads a pattern, `Token.matches` says which names it matches, and `escape` writes a text as
the pattern that matches only this text.
-/

namespace ContractBindings.Glob

/-- A member of a set of characters. -/
inductive Specifier where
  | single (c : Char)
  | range (first last : Char)
  deriving DecidableEq, Repr

/-- A part of a pattern. -/
inductive Token where
  | char (c : Char)
  | anyChar
  | anySequence
  | anyDirectories
  | oneOf (set : List Specifier)
  | noneOf (set : List Specifier)
  deriving DecidableEq, Repr

/-- Why a text is no pattern. -/
inductive PatternFault where
  | tooManyStars
  | partOfComponent
  | openRange
  deriving DecidableEq, Repr

/-- A fault in a pattern, and the index of a character there. -/
structure PatternError where
  position : Nat
  fault : PatternFault
  deriving DecidableEq, Repr

def PatternFault.message : PatternFault → String
  | tooManyStars => "wildcards are either regular `*` or recursive `**`"
  | partOfComponent => "recursive wildcards must form a single path component"
  | openRange => "invalid range pattern"

def PatternError.message (e : PatternError) : String :=
  "Pattern syntax error near position " ++ Nat.repr e.position ++ ": " ++ e.fault.message

/-! ## Reading patterns -/

/-- The members of a set; a hyphen between two characters makes a range. -/
def specifiers : List Char → List Specifier
  | a :: '-' :: b :: rest => .range a b :: specifiers rest
  | a :: rest => .single a :: specifiers rest
  | [] => []

/-- Splits a text at its first closing bracket. -/
def splitAtBracket (cs : List Char) : Option (List Char × List Char) :=
  match cs.dropWhile (· != ']') with
  | [] => none
  | _ :: rest => some (cs.takeWhile (· != ']'), rest)

/--
Reads a set behind its opening bracket: the token and the text behind the closing bracket.  The first
character belongs to the set even if it is a bracket.
-/
def readSet : List Char → Option (Token × List Char)
  | '!' :: c :: rest =>
    (splitAtBracket rest).map fun (inner, after) => (.noneOf (specifiers (c :: inner)), after)
  | ['!'] => none
  | c :: rest =>
    (splitAtBracket rest).map fun (inner, after) => (.oneOf (specifiers (c :: inner)), after)
  | [] => none

/--
Reads the tokens of a pattern from the character with the given index on; `previous` is the character
before it.  The budget bounds the number of tokens; the length of the pattern is always enough.
-/
def tokenizeFrom : Nat → Nat → Option Char → List Char → Except PatternError (List Token)
  | 0, _, _, _ => .ok []
  | _ + 1, _, _, [] => .ok []
  | budget + 1, index, previous, c :: rest =>
    if c = '?' then do
      let tokens ← tokenizeFrom budget (index + 1) (some c) rest
      .ok (.anyChar :: tokens)
    else if c = '*' then
      match rest with
      | '*' :: '*' :: _ => .error ⟨index + 2, .tooManyStars⟩
      | '*' :: rest =>
        if previous = none ∨ previous = some '/' then
          match rest with
          | [] => .ok [.anyDirectories]
          | '/' :: rest => do
            let tokens ← tokenizeFrom budget (index + 3) (some '/') rest
            .ok (.anyDirectories :: tokens)
          | _ => .error ⟨index + 2, .partOfComponent⟩
        else .error ⟨index - 1, .partOfComponent⟩
      | rest => do
        let tokens ← tokenizeFrom budget (index + 1) (some c) rest
        .ok (.anySequence :: tokens)
    else if c = '[' then
      match readSet rest with
      | none => .error ⟨index, .openRange⟩
      | some (token, after) => do
        let tokens ← tokenizeFrom budget (index + 1 + (rest.length - after.length)) (some ']') after
        .ok (token :: tokens)
    else do
      let tokens ← tokenizeFrom budget (index + 1) (some c) rest
      .ok (.char c :: tokens)

def tokenize (pattern : List Char) : Except PatternError (List Token) :=
  tokenizeFrom (pattern.length + 1) 0 none pattern

/-! ## Matching -/

def Specifier.contains (c : Char) : Specifier → Bool
  | single d => c == d
  | range first last => first ≤ c && c ≤ last

/-- All ends of a list, the list itself first. -/
def suffixes : List Char → List (List Char)
  | [] => [[]]
  | c :: rest => (c :: rest) :: suffixes rest

/-- Whether a token stands for this one character. -/
def Token.accepts (c : Char) : Token → Bool
  | char d => c == d
  | anyChar => true
  | oneOf set => set.any (·.contains c)
  | noneOf set => !set.any (·.contains c)
  | anySequence | anyDirectories => false

def Token.matches : List Token → List Char → Bool
  | [], name => name.isEmpty
  | .anySequence :: tokens, name => (suffixes name).any (Token.matches tokens)
  | .anyDirectories :: tokens, name => (suffixes name).any (Token.matches tokens)
  | _ :: _, [] => false
  | token :: tokens, c :: rest => token.accepts c && Token.matches tokens rest

/-- The text that is the only one matched, if the tokens are plain characters. -/
def Token.literal? : List Token → Option (List Char)
  | [] => some []
  | .char c :: tokens => (Token.literal? tokens).map (c :: ·)
  | _ :: _ => none

/-! ## Escaping -/

/-- Whether a character has a meaning in patterns. -/
def isSpecial (c : Char) : Bool := c == '?' || c == '*' || c == '[' || c == ']'

/-- The pattern of one character. -/
def escapeChar (c : Char) : List Char := if isSpecial c then ['[', c, ']'] else [c]

/-- The pattern that matches only this text. -/
def escape (cs : List Char) : List Char := cs.flatMap escapeChar

end ContractBindings.Glob
