import ContractBindings.Proofs.Binding.Slots
import ContractBindings.Proofs.Text.Identifier

/-!
# The import specifier

A module names the runtime module by a string literal.  The literal is written as a quoted text, but what it
stands for is settled by the rules of ECMAScript for literals in strict mode.  The two sorts of escapes are
not the same: in a literal, the escape of a NUL ends only where no digit follows.

* `units_injective`: the value of a literal is a list of code units, which belongs to one text only;
* `isLiteral_quoted_iff`: a quoted text is a literal exactly if no NUL stands before a digit in the text, and
  then its value is the text;
* `hasNoBreak_quoted`: it is on one line;
* `render_specifier`: so the specifier of a module reads back, unless there is a NUL in it.
-/

set_option autoImplicit false

namespace ContractBindings.Binding

open Text

/-! ## Code units -/

/-- The code units of a number in UTF-16: the number itself, or above `0xFFFF` a leading unit with its upper
bits and a trailing unit with its lower ten. -/
def unitsOf (n : Nat) : List UInt16 :=
  if n < 0x10000 then [UInt16.ofNat n]
  else
    [UInt16.ofNat (0xD800 + (n - 0x10000) / 0x400), UInt16.ofNat (0xDC00 + (n - 0x10000) % 0x400)]

def unitsOfChars (cs : List Char) : List UInt16 := cs.flatMap fun c => unitsOf c.toNat

def units (s : String) : List UInt16 := unitsOfChars s.toList

theorem unitsOf_ne_nil (n : Nat) : unitsOf n ≠ [] := by
  unfold unitsOf
  split <;> simp

theorem ofNat_inj_of_lt {m n : Nat} (hm : m < 0x10000) (hn : n < 0x10000)
    (h : UInt16.ofNat m = UInt16.ofNat n) : m = n := by
  have hnumbers := congrArg UInt16.toNat h
  rw [UInt16.toNat_ofNat', UInt16.toNat_ofNat'] at hnumbers
  omega

/-- **The first units tell the character**: no character has the number of a leading unit. -/
theorem eq_of_unitsOf_append {c d : Char} {r r' : List UInt16}
    (h : unitsOf c.toNat ++ r = unitsOf d.toNat ++ r') : c = d ∧ r = r' := by
  have hc : c.toNat < 0xD800 ∨ (0xDFFF < c.toNat ∧ c.toNat < 0x110000) := c.valid
  have hd : d.toNat < 0xD800 ∨ (0xDFFF < d.toNat ∧ d.toNat < 0x110000) := d.valid
  suffices hsame : c.toNat = d.toNat by
    obtain rfl : c = d := Char.toNat_inj.mp hsame
    exact ⟨rfl, List.append_cancel_left h⟩
  unfold unitsOf at h
  split at h
  · split at h
    · exact ofNat_inj_of_lt (by omega) (by omega) (List.cons.inj h).1
    · have hfirst := ofNat_inj_of_lt (by omega) (by omega) (List.cons.inj h).1
      omega
  · split at h
    · have hfirst := ofNat_inj_of_lt (by omega) (by omega) (List.cons.inj h).1
      omega
    · have hfirst := ofNat_inj_of_lt (by omega) (by omega) (List.cons.inj h).1
      have hsecond := ofNat_inj_of_lt (by omega) (by omega) (List.cons.inj (List.cons.inj h).2).1
      omega

theorem unitsOfChars_cons (c : Char) (cs : List Char) :
    unitsOfChars (c :: cs) = unitsOf c.toNat ++ unitsOfChars cs := List.flatMap_cons

theorem eq_nil_of_unitsOfChars {cs : List Char} (h : unitsOfChars cs = []) : cs = [] := by
  cases cs with
  | nil => rfl
  | cons c cs =>
    rw [unitsOfChars_cons] at h
    exact absurd (List.append_eq_nil_iff.mp h).1 (unitsOf_ne_nil c.toNat)

theorem unitsOfChars_injective : Function.Injective unitsOfChars := by
  intro cs
  induction cs with
  | nil =>
    intro ds h
    exact (eq_nil_of_unitsOfChars h.symm).symm
  | cons c cs ih =>
    intro ds h
    cases ds with
    | nil => exact eq_nil_of_unitsOfChars h
    | cons d ds =>
      rw [unitsOfChars_cons, unitsOfChars_cons] at h
      obtain ⟨hfirst, hrest⟩ := eq_of_unitsOf_append h
      rw [hfirst, ih hrest]

/-- **Code units belong to one text.** -/
theorem units_injective : Function.Injective units :=
  fun _ _ h => String.toList_injective (unitsOfChars_injective h)

/-! ## Literals -/

namespace Literal

/-- The number of the character that a letter stands for behind a backslash. -/
def letter? : Char → Option Nat
  | '\'' => some 0x27
  | '"' => some 0x22
  | '\\' => some 0x5C
  | 'b' => some 0x08
  | 't' => some 0x09
  | 'n' => some 0x0A
  | 'v' => some 0x0B
  | 'f' => some 0x0C
  | 'r' => some 0x0D
  | _ => none

/-- A hexadecimal digit, of either case. -/
def isHexDigit (c : Char) : Bool := (Hex.value? c).isSome

/-- The number that hexadecimal digits spell, behind those that spelled `n`. -/
def hexNumber? (n : Nat) : List Char → Option Nat
  | [] => some n
  | c :: cs => (Hex.value? c).bind fun d => hexNumber? (16 * n + d) cs

/-- Reads so many hexadecimal digits. -/
def fixedDigits? (count : Nat) (cs : List Char) : Option (List UInt16 × List Char) :=
  if cs.length < count then none
  else (hexNumber? 0 (cs.take count)).map fun n => (unitsOf n, cs.drop count)

/-- Reads hexadecimal digits up to a brace: at least one, and no number above the last code point. -/
def bracedDigits? (cs : List Char) : Option (List UInt16 × List Char) :=
  match cs.takeWhile isHexDigit, cs.dropWhile isHexDigit with
  | d :: digits, '\x7d' :: rest =>
    (hexNumber? 0 (d :: digits)).bind fun n => if n ≤ 0x10FFFF then some (unitsOf n, rest) else none
  | _, _ => none

/--
Reads an escape behind its backslash.  A line may be continued.  In strict mode no digit is an escape but
the zero, and only where it is not the first of several digits.
-/
def escape? : List Char → Option (List UInt16 × List Char)
  | [] => none
  | c :: rest =>
    if c = 'x' then fixedDigits? 2 rest
    else if c = 'u' then
      match rest with
      | '\x7b' :: digits => bracedDigits? digits
      | _ => fixedDigits? 4 rest
    else if c = '0' then
      if rest.head?.any Char.isDigit then none else some (unitsOf 0, rest)
    else if c.isDigit then none
    else if c = '\r' then
      match rest with
      | '\n' :: behind => some ([], behind)
      | _ => some ([], rest)
    else if isLineBreak c then some ([], rest)
    else
      match letter? c with
      | some n => some (unitsOf n, rest)
      | none => some (unitsOf c.toNat, rest)

/-- Reads one element of a literal: an escape, or a character other than the quote and the ends of lines that
no literal may hold. -/
def element? (quote : Char) : List Char → Option (List UInt16 × List Char)
  | [] => none
  | c :: rest =>
    if c = quote ∨ c = '\n' ∨ c = '\r' then none
    else if c = '\\' then escape? rest
    else some (unitsOf c.toNat, rest)

/-- A text begins with elements and a closing quote: their value, and what follows them. -/
inductive Elements (quote : Char) : List Char → List UInt16 → List Char → Prop where
  | quote (behind : List Char) : Elements quote (quote :: behind) [] behind
  | element {cs rest behind : List Char} {first others : List UInt16}
      (hfirst : element? quote cs = some (first, rest)) (hothers : Elements quote rest others behind) :
      Elements quote cs (first ++ others) behind

end Literal

/-- A text begins with a string literal: its value, and what follows it. -/
inductive IsLiteral : List Char → List UInt16 → List Char → Prop where
  | double {cs behind : List Char} {value : List UInt16} (h : Literal.Elements '"' cs value behind) :
      IsLiteral ('"' :: cs) value behind
  | single {cs behind : List Char} {value : List UInt16} (h : Literal.Elements '\'' cs value behind) :
      IsLiteral ('\'' :: cs) value behind

namespace Literal

variable {quote : Char} {cs rest behind : List Char} {value first : List UInt16}

/-- A literal goes on behind its first element. -/
theorem elements_iff (h : element? quote cs = some (first, rest)) :
    Elements quote cs value behind ↔
      ∃ others, value = first ++ others ∧ Elements quote rest others behind := by
  constructor
  · rintro (_ | ⟨hfirst, hothers⟩)
    · simp [element?] at h
    · cases h.symm.trans hfirst
      exact ⟨_, rfl, hothers⟩
  · rintro ⟨others, rfl, hothers⟩
    exact Elements.element h hothers

theorem not_elements (h : element? quote cs = none) (hquote : cs.head? ≠ some quote) :
    ¬ Elements quote cs value behind := by
  rintro (_ | ⟨hfirst, _⟩)
  · exact hquote rfl
  · rw [h] at hfirst
    cases hfirst

theorem elements_quote_iff :
    Elements quote (quote :: cs) value behind ↔ value = [] ∧ behind = cs := by
  constructor
  · rintro (_ | ⟨hfirst, _⟩)
    · exact ⟨rfl, rfl⟩
    · simp [element?] at hfirst
  · rintro ⟨rfl, rfl⟩
    exact Elements.quote _

/-! ## Numbers in escapes -/

theorem value?_digitChar : ∀ n < 16, Hex.value? n.digitChar = some n := by decide

theorem hexNumber?_append (n : Nat) (cs ds : List Char) :
    hexNumber? n (cs ++ ds) = (hexNumber? n cs).bind fun m => hexNumber? m ds := by
  induction cs generalizing n with
  | nil => rfl
  | cons c cs ih =>
    rw [List.cons_append, hexNumber?, hexNumber?, Option.bind_assoc]
    simp only [ih]

/-- The digits of a number spell it. -/
theorem hexNumber?_toDigits (n : Nat) : hexNumber? 0 (Nat.toDigits 16 n) = some n := by
  induction n using Nat.strongRecOn with
  | ind n ih =>
    by_cases hlt : n < 16
    · rw [Nat.toDigits_of_lt_base hlt, hexNumber?, value?_digitChar n hlt]
      simp [hexNumber?]
    · have hlast := value?_digitChar (n % 16) (by omega)
      have hn : 16 * (n / 16) + n % 16 = n := by omega
      rw [Nat.toDigits_of_base_le (by decide) (by omega), hexNumber?_append, ih (n / 16) (by omega)]
      simp [hexNumber?, hlast, hn]

theorem isHexDigit_of_hexNumber? {n m : Nat} (h : hexNumber? n cs = some m) :
    ∀ c ∈ cs, isHexDigit c = true := by
  induction cs generalizing n with
  | nil => simp
  | cons c cs ih =>
    obtain ⟨d, hd, hrest⟩ := Option.bind_eq_some_iff.mp h
    intro c' hc'
    rcases List.mem_cons.mp hc' with rfl | hc'
    · rw [isHexDigit, hd, Option.isSome_some]
    · exact ih hrest c' hc'

theorem bracedDigits?_ofNat {n : Nat} (h : n ≤ 0x10FFFF) (rest : List Char) :
    bracedDigits? (Hex.ofNat n ++ '\x7d' :: rest) = some (unitsOf n, rest) := by
  have hnumber := hexNumber?_toDigits n
  have hdigits := isHexDigit_of_hexNumber? hnumber
  have hbrace : isHexDigit '\x7d' = false := by decide
  obtain ⟨d, ds, hds⟩ := List.exists_cons_of_ne_nil (Nat.toDigits_ne_nil (n := n) (b := 16))
  have htake : (Hex.ofNat n ++ '\x7d' :: rest).takeWhile isHexDigit = d :: ds := by
    rw [Hex.ofNat, List.takeWhile_append_of_pos hdigits, hds]
    simp [hbrace]
  have hdrop : (Hex.ofNat n ++ '\x7d' :: rest).dropWhile isHexDigit = '\x7d' :: rest := by
    rw [Hex.ofNat, List.dropWhile_append_of_pos hdigits]
    simp [hbrace]
  rw [hds] at hnumber
  rw [bracedDigits?, htake, hdrop]
  simp only [hnumber, Option.bind_some, if_pos h]

/-! ## Quoted texts -/

theorem toNat_le_last (c : Char) : c.toNat ≤ 0x10FFFF := by
  have hc : c.toNat < 0xD800 ∨ (0xDFFF < c.toNat ∧ c.toNat < 0x110000) := c.valid
  omega

/-- **An escaped character is read as this character**, unless it is a NUL and a digit follows. -/
theorem element?_escape {c : Char} (h : c = '\x00' → rest.head?.any Char.isDigit = false) :
    element? '"' (Quoted.escape c ++ rest) = some (unitsOf c.toNat, rest) := by
  unfold Quoted.escape
  split
  · rename_i hnul
    subst hnul
    simp [element?, escape?, h rfl]
  split
  · subst_vars; rfl
  split
  · subst_vars; rfl
  split
  · subst_vars; rfl
  split
  · subst_vars; rfl
  split
  · subst_vars; rfl
  split
  · rename_i hreturn hline hquote hslash _
    simp [element?, hreturn, hline, hquote, hslash]
  · simp [element?, escape?, bracedDigits?_ofNat (toNat_le_last c)]

/-- The escape of a NUL is none in front of a digit. -/
theorem element?_escape_nul (h : rest.head?.any Char.isDigit = true) :
    element? '"' (Quoted.escape '\x00' ++ rest) = none := by
  have hescape : Quoted.escape '\x00' = ['\\', '0'] := rfl
  simp [hescape, element?, escape?, h]

/-- Two other escapes of a NUL end where a digit follows. -/
example :
    ["\\01", "\\0a", "\\x001", "\\u\x7b0\x7d1"].map (fun text => element? '"' text.toList) =
      [none, some ([0], ['a']), some ([0], ['1']), some ([0], ['1'])] := by decide

theorem isPrintable_of_isDigit {c : Char} (h : c.isDigit = true) : isPrintable c = true := by
  have hlower : 48 ≤ c.toNat := by
    simp only [Char.isDigit, Bool.and_eq_true, decide_eq_true_eq] at h
    exact UInt32.le_iff_toNat_le.mp h.1
  have hupper : c.toNat ≤ 57 := toNat_le_of_isDigit h
  have hascii : (0x20 ≤ c.toNat && c.toNat < 0x7F) = true := by
    rw [Bool.and_eq_true, decide_eq_true_eq, decide_eq_true_eq]
    omega
  rw [isPrintable, hascii, Bool.true_or]

/-- A digit is written as it is, and nothing else is written with a digit in front. -/
theorem exists_escape_cons (c : Char) :
    ∃ d behind, Quoted.escape c = d :: behind ∧ d ≠ '"' ∧ d.isDigit = c.isDigit := by
  unfold Quoted.escape
  split_ifs with hnul htab hreturn hline hquote hslash hprintable
  · exact ⟨_, _, rfl, by decide, by rw [hnul]; rfl⟩
  · exact ⟨_, _, rfl, by decide, by rw [htab]; rfl⟩
  · exact ⟨_, _, rfl, by decide, by rw [hreturn]; rfl⟩
  · exact ⟨_, _, rfl, by decide, by rw [hline]; rfl⟩
  · exact ⟨_, _, rfl, by decide, by rw [hquote]; rfl⟩
  · exact ⟨_, _, rfl, by decide, by rw [hslash]⟩
  · exact ⟨_, _, rfl, hquote, rfl⟩
  · refine ⟨_, _, rfl, by decide, ?_⟩
    have hdigit : c.isDigit = false := by
      rw [Bool.eq_false_iff]
      exact fun h => hprintable (isPrintable_of_isDigit h)
    rw [hdigit]
    rfl

theorem any_head?_escaped (cs behind : List Char) :
    (cs.flatMap Quoted.escape ++ '"' :: behind).head?.any Char.isDigit = cs.head?.any Char.isDigit := by
  cases cs with
  | nil => rfl
  | cons c cs =>
    obtain ⟨d, others, hescape, -, hdigit⟩ := exists_escape_cons c
    rw [List.flatMap_cons, hescape]
    simpa using hdigit

end Literal

/-- No NUL stands right before a digit. -/
def NulsStandAlone (cs : List Char) : Prop := ∀ d, ['\x00', d] <:+: cs → d.isDigit = false

theorem nulsStandAlone_nil : NulsStandAlone [] := by
  intro d h
  exact absurd (List.infix_nil.mp h) (by simp)

theorem nulsStandAlone_cons_iff {c : Char} {cs : List Char} :
    NulsStandAlone (c :: cs) ↔
      (c = '\x00' → cs.head?.any Char.isDigit = false) ∧ NulsStandAlone cs := by
  simp only [NulsStandAlone, List.infix_cons_iff, List.cons_prefix_cons, or_imp, forall_and]
  refine and_congr_left fun _ => ?_
  cases cs with
  | nil => simp
  | cons d cs =>
    simp only [List.cons_prefix_cons, List.nil_prefix, and_true, List.head?_cons, Option.any_some]
    constructor
    · rintro h rfl
      exact h d ⟨rfl, rfl⟩
    · rintro h d' ⟨rfl, rfl⟩
      exact h rfl

/-- **The escapes of a text are the elements of a literal exactly if** no NUL in it stands before a digit. -/
theorem elements_escaped_iff {cs behind rest : List Char} {value : List UInt16} :
    Literal.Elements '"' (cs.flatMap Quoted.escape ++ '"' :: behind) value rest ↔
      NulsStandAlone cs ∧ value = unitsOfChars cs ∧ rest = behind := by
  induction cs generalizing value with
  | nil =>
    rw [List.flatMap_nil, List.nil_append, Literal.elements_quote_iff]
    exact (and_iff_right nulsStandAlone_nil).symm
  | cons c cs ih =>
    -- a digit follows the escape exactly if one follows the character
    have hnext := Literal.any_head?_escaped cs behind
    rw [List.flatMap_cons, List.append_assoc, nulsStandAlone_cons_iff, ← hnext]
    by_cases halone :
        c = '\x00' → (cs.flatMap Quoted.escape ++ '"' :: behind).head?.any Char.isDigit = false
    · rw [Literal.elements_iff (Literal.element?_escape halone), and_iff_right halone]
      simp only [ih]
      constructor
      · rintro ⟨_, rfl, hcs, rfl, rfl⟩
        exact ⟨hcs, rfl, rfl⟩
      · rintro ⟨hcs, rfl, rfl⟩
        exact ⟨_, rfl, hcs, rfl, rfl⟩
    · refine iff_of_false ?_ fun h => halone h.1.1
      obtain ⟨rfl, hdigit⟩ := Classical.not_imp.mp halone
      rw [Bool.not_eq_false] at hdigit
      obtain ⟨d, others, hescape, hquote, -⟩ := Literal.exists_escape_cons '\x00'
      refine Literal.not_elements (Literal.element?_escape_nul hdigit) ?_
      rw [hescape]
      simpa using hquote

/--
**A quoted text is a literal exactly if no NUL stands before a digit.**  Then it is one in a single way, as
far as its own closing quote, and its value is the text.
-/
theorem isLiteral_quoted_iff (s : String) (behind rest : List Char) (value : List UInt16) :
    IsLiteral ((quoted s).toList ++ behind) value rest ↔
      NulsStandAlone s.toList ∧ value = units s ∧ rest = behind := by
  have hchars : (quoted s).toList ++ behind =
      '"' :: (s.toList.flatMap Quoted.escape ++ '"' :: behind) := by
    rw [quoted, String.toList_ofList, Quoted.chars, List.cons_append, List.cons_append,
      List.append_assoc, List.singleton_append]
  rw [hchars, units, ← elements_escaped_iff]
  constructor
  · rintro (h | _)
    exact h
  · exact IsLiteral.double

/-- A character is no line break if it passes a test that no line break passes. -/
theorem isLineBreak_of_test {test : Char → Bool} {c : Char} (h : test c = true)
    (hbreaks : ['\n', '\r', '\u2028', '\u2029'].all (fun d => !test d) = true) :
    isLineBreak c = false := by
  rw [Bool.eq_false_iff]
  intro hbreak
  have hmem : c ∈ ['\n', '\r', '\u2028', '\u2029'] := by
    simpa [isLineBreak, or_assoc] using hbreak
  have hfails := List.all_eq_true.mp hbreaks c hmem
  rw [h] at hfails
  cases hfails

theorem all_escape_not_isLineBreak (c : Char) : (Quoted.escape c).all (fun d => !isLineBreak d) = true := by
  unfold Quoted.escape
  split_ifs with _ _ _ _ _ _ hprintable
  · rfl
  · rfl
  · rfl
  · rfl
  · rfl
  · rfl
  · have hbreak := isLineBreak_of_test hprintable (by decide +kernel)
    simp [hbreak]
  · have hdigits : (Hex.ofNat c.toNat).all (fun d => !isLineBreak d) = true := by
      rw [List.all_eq_true]
      intro d hd
      have hdigit := Literal.isHexDigit_of_hexNumber? (Literal.hexNumber?_toDigits c.toNat) d hd
      rw [isLineBreak_of_test hdigit (by decide), Bool.not_false]
    rw [List.all_append, List.all_append, hdigits]
    rfl

/-- **A quoted text is on one line**, whatever the text is. -/
theorem hasNoBreak_quoted (s : String) : hasNoBreak (quoted s) = true := by
  have hescaped : (s.toList.flatMap Quoted.escape).all (fun d => !isLineBreak d) = true := by
    rw [List.all_flatMap, List.all_eq_true]
    exact fun c _ => all_escape_not_isLineBreak c
  rw [hasNoBreak, quoted, String.toList_ofList, Quoted.chars, List.cons_append, List.all_cons,
    List.all_append, hescaped]
  rfl

/-! ## The import line -/

/--
A text is a string literal for another text: it is on one line, and wherever it stands it is one literal with
the code units of this text and of no other.
-/
structure StandsFor (literal text : String) : Prop where
  oneLine : hasNoBreak literal = true
  isLiteral_iff : ∀ (behind rest : List Char) (value : List UInt16),
    IsLiteral (literal.toList ++ behind) value rest ↔ value = units text ∧ rest = behind
  units_eq_iff : ∀ other, units other = units text ↔ other = text

theorem standsFor_quoted {s : String} (h : NulsStandAlone s.toList) : StandsFor (quoted s) s where
  oneLine := hasNoBreak_quoted s
  isLiteral_iff behind rest value := by rw [isLiteral_quoted_iff, and_iff_right h]
  units_eq_iff _ := units_injective.eq_iff

/--
**The import specifier reads back.**  Where the import line of a module names the runtime module, it holds a
string literal that stands for the name, unless there is a NUL in the name.
-/
theorem render_specifier (dialect : Dialect) (contract : String) (d : Abi.Document)
    (signatures : List Signature) (h : '\x00' ∉ dialect.runtimeModule.toList) :
    ∃ literal : String,
      StandsFor literal dialect.runtimeModule ∧
      (BindingModule.render dialect contract d signatures).source =
        banner contract ++ "\n"
          ++ ("import \x7b " ++ joined ", " (imports (members signatures)) ++ " \x7d from " ++ literal
            ++ "\n")
          ++ "\n" ++ abiConstant (sanitize contract) (abiLiteral d)
          ++ "\n" ++ contractType (sanitize contract) (members signatures)
          ++ "\n" ++ factory (sanitize contract) (parameterName dialect.runnerParameter 0) := by
  refine ⟨quoted dialect.runtimeModule, standsFor_quoted fun c hc => ?_, rfl⟩
  exact absurd (hc.subset (by simp)) h

/-- A name with quotes, a backslash, line breaks, a control character and a character of two code units. -/
def sampleDialect : Dialect := ⟨"./a\\\"'\n\u2028\x07😀", "runner"⟩

theorem render_specifier_sample :
    '\x00' ∉ sampleDialect.runtimeModule.toList ∧
      ∃ literal : String,
        StandsFor literal sampleDialect.runtimeModule ∧
        (BindingModule.render sampleDialect "T" ⟨[]⟩ []).source =
          banner "T" ++ "\n"
            ++ ("import \x7b " ++ joined ", " (imports (members [])) ++ " \x7d from " ++ literal ++ "\n")
            ++ "\n" ++ abiConstant (sanitize "T") (abiLiteral ⟨[]⟩)
            ++ "\n" ++ contractType (sanitize "T") (members [])
            ++ "\n" ++ factory (sanitize "T") (parameterName sampleDialect.runnerParameter 0) :=
  ⟨by decide, render_specifier sampleDialect "T" ⟨[]⟩ [] (by decide)⟩

end ContractBindings.Binding
