/-!
# UTF-8

Texts are `String`s; names of files and what programs print are bytes.  This module goes between
the two:

* `encode` writes a text as bytes and `decode?` reads bytes that are valid UTF-8
  (`decode?_encode`);
* `decodeLossy` reads any bytes.  Each longest piece that begins a character but does not finish it,
  and each byte that begins none, becomes one U+FFFD.
-/

namespace ContractBindings.Text

/-- A sequence of bytes: a name, a path, or the output of a program. -/
abbrev Bytes := List UInt8

/-- The UTF-8 bytes of a text. -/
def encode (s : String) : Bytes := s.toUTF8.data.toList

/-- The text with these UTF-8 bytes, if they are valid. -/
def decode? (b : Bytes) : Option String := String.fromUTF8? ⟨b.toArray⟩

theorem decode?_encode (s : String) : decode? (encode s) = some s := by
  simp only [decode?, encode, Array.toArray_toList, String.fromUTF8?,
    String.toUTF8_eq_toByteArray, dif_pos s.isValidUTF8]
  rfl

theorem encode_injective {s t : String} (h : encode s = encode t) : s = t := by
  have hs := decode?_encode s
  rw [h, decode?_encode] at hs
  exact (Option.some.inj hs).symm

/-- The character that stands for bytes that are not text. -/
def replacement : Char := '\uFFFD'

/-- A byte that continues a character: `10xxxxxx`. -/
def isContinuation (b : UInt8) : Bool := 0x80 ≤ b && b ≤ 0xBF

/-- The number of bytes that follow a leading byte, `none` if the byte leads no character. -/
def followers (b : UInt8) : Option Nat :=
  if b < 0x80 then some 0
  else if 0xC2 ≤ b && b ≤ 0xDF then some 1
  else if 0xE0 ≤ b && b ≤ 0xEF then some 2
  else if 0xF0 ≤ b && b ≤ 0xF4 then some 3
  else none

/--
Whether `b` may stand second after the leading byte `lead`.  The bounds leave out spellings that
are longer than needed, surrogates, and numbers above U+10FFFF.
-/
def isSecond (lead b : UInt8) : Bool :=
  if lead == 0xE0 then 0xA0 ≤ b && b ≤ 0xBF
  else if lead == 0xED then 0x80 ≤ b && b ≤ 0x9F
  else if lead == 0xF0 then 0x90 ≤ b && b ≤ 0xBF
  else if lead == 0xF4 then 0x80 ≤ b && b ≤ 0x8F
  else isContinuation b

/-- The character whose bytes carry the given bits, most significant byte first. -/
def assemble (lead : UInt8) (following : List UInt8) : Char :=
  let kept := match following.length with
    | 0 => lead.toNat
    | 1 => lead.toNat % 32
    | 2 => lead.toNat % 16
    | _ => lead.toNat % 8
  Char.ofNat (following.foldl (fun n b => n * 64 + b.toNat % 64) kept)

/--
Reads bytes as text, with `replacement` for every piece that is not text.  A piece ends before the
first byte that cannot continue it.
-/
def decodeLossyChars : Bytes → List Char
  | [] => []
  | b :: rest =>
    match followers b, rest with
    | none, rest => replacement :: decodeLossyChars rest
    | some 0, rest => assemble b [] :: decodeLossyChars rest
    | some _, [] => [replacement]
    | some 1, c :: rest =>
      if isSecond b c then assemble b [c] :: decodeLossyChars rest
      else replacement :: decodeLossyChars (c :: rest)
    | some 2, c :: rest =>
      if isSecond b c then
        match rest with
        | [] => [replacement]
        | d :: rest =>
          if isContinuation d then assemble b [c, d] :: decodeLossyChars rest
          else replacement :: decodeLossyChars (d :: rest)
      else replacement :: decodeLossyChars (c :: rest)
    | some _, c :: rest =>
      if isSecond b c then
        match rest with
        | [] => [replacement]
        | d :: rest =>
          if isContinuation d then
            match rest with
            | [] => [replacement]
            | e :: rest =>
              if isContinuation e then assemble b [c, d, e] :: decodeLossyChars rest
              else replacement :: decodeLossyChars (e :: rest)
          else replacement :: decodeLossyChars (d :: rest)
      else replacement :: decodeLossyChars (c :: rest)

def decodeLossy (b : Bytes) : String := String.ofList (decodeLossyChars b)

/-- The number of bytes of a list of characters in UTF-8. -/
def utf8Length (cs : List Char) : Nat := cs.foldl (fun n c => n + c.utf8Size) 0

end ContractBindings.Text
