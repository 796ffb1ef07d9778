import ContractBindings.Proofs.HostType.Nesting

/-!
# The grammar of mapped types

The base types with a mapping form five classes, each the language of a regular expression (`grammar`).

* `class?_eq_some_iff`: a base is of a class exactly if it is one of its words, so no base is of two
  classes (`eq_of_mem_grammar`);
* `isBaseType_ofBase`: what a base resolves to says which words it is one of;
* `resolve_grammar`: a type is a base with brackets behind it in exactly one way, and it resolves to what
  the words of its base stand for, inside as many arrays.
-/

set_option autoImplicit false

namespace ContractBindings.HostType

open RegularExpression
open scoped Computability

/-! ## The words of a class -/

def word (text : String) : RegularExpression Char := (text.toList.map char).foldr (· * ·) 1

/-- The expression for one of several characters. -/
def oneOf (chars : String) : RegularExpression Char := (chars.toList.map char).foldr (· + ·) 0

/-- The words of each class of base types. -/
def grammar : Class → RegularExpression Char
  | .integer =>
    (1 + char 'u') * word "int" * (oneOf "0123456789").star
      + (1 + char 'u') * word "fixed" * (oneOf "0123456789x").star
  | .bytes => word "bytes" * (oneOf "0123456789").star
  | .string => word "string"
  | .bool => word "bool"
  | .address => word "address"

/-- A base is a word of a class. -/
def IsWord (c : Class) (base : List Char) : Prop := base ∈ (grammar c).matches'

theorem mem_foldr_mul {cs base : List Char} :
    base ∈ ((cs.map char).foldr (· * ·) 1).matches' ↔ base = cs := by
  induction cs generalizing base with
  | nil => exact Language.mem_one base
  | cons c cs ih =>
    rw [List.map_cons, List.foldr_cons, matches'_mul, matches'_char, Language.mem_mul]
    constructor
    · rintro ⟨first, hfirst, rest, hrest, rfl⟩
      rw [Set.mem_singleton_iff.mp hfirst, ih.mp hrest]
      rfl
    · rintro rfl
      exact ⟨[c], rfl, cs, ih.mpr rfl, rfl⟩

theorem mem_word_iff {text : String} {base : List Char} :
    base ∈ (word text).matches' ↔ base = text.toList := mem_foldr_mul

theorem mem_foldr_add {cs base : List Char} :
    base ∈ ((cs.map char).foldr (· + ·) 0).matches' ↔ ∃ c ∈ cs, base = [c] := by
  induction cs with
  | nil => simp [matches'_zero, Language.notMem_zero]
  | cons c cs ih =>
    rw [List.map_cons, List.foldr_cons, matches'_add, Language.mem_add, ih, matches'_char,
      List.exists_mem_cons_iff]
    rfl

theorem mem_star_oneOf_iff {chars : String} {base : List Char} :
    base ∈ (oneOf chars).star.matches' ↔ ∀ c ∈ base, c ∈ chars.toList := by
  rw [matches'_star, Language.mem_kstar]
  constructor
  · rintro ⟨texts, rfl, htexts⟩ c hc
    obtain ⟨text, htext, hc⟩ := List.mem_flatten.mp hc
    obtain ⟨d, hd, rfl⟩ := mem_foldr_add.mp (htexts text htext)
    rwa [List.mem_singleton.mp hc]
  · intro hbase
    refine ⟨base.map fun c => [c], by rw [← List.flatMap_def, List.flatMap_singleton'], fun text htext => ?_⟩
    obtain ⟨c, hc, rfl⟩ := List.mem_map.mp htext
    exact mem_foldr_add.mpr ⟨c, hbase c hc, rfl⟩

theorem mem_word_mul_star_iff {text chars : String} {base : List Char} :
    base ∈ (word text * (oneOf chars).star).matches' ↔
      ∃ rest, base = text.toList ++ rest ∧ ∀ c ∈ rest, c ∈ chars.toList := by
  rw [matches'_mul, Language.mem_mul]
  constructor
  · rintro ⟨first, hfirst, rest, hrest, rfl⟩
    exact ⟨rest, by rw [mem_word_iff.mp hfirst], mem_star_oneOf_iff.mp hrest⟩
  · rintro ⟨rest, rfl, hrest⟩
    exact ⟨_, mem_word_iff.mpr rfl, rest, mem_star_oneOf_iff.mpr hrest, rfl⟩

/-- A word with an optional `u` in front. -/
theorem mem_unsigned_iff {text chars : String} {base : List Char} :
    base ∈ ((1 + char 'u') * word text * (oneOf chars).star).matches' ↔
      ∃ front rest, (front = [] ∨ front = ['u']) ∧ base = front ++ text.toList ++ rest ∧
        ∀ c ∈ rest, c ∈ chars.toList := by
  simp only [matches'_mul, Language.mem_mul, matches'_add, Language.mem_add, matches'_epsilon,
    Language.mem_one, matches'_char]
  constructor
  · rintro ⟨_, ⟨front, hfront, middle, hmiddle, rfl⟩, rest, hrest, rfl⟩
    exact ⟨front, rest, hfront, by rw [mem_word_iff.mp hmiddle], mem_star_oneOf_iff.mp hrest⟩
  · rintro ⟨front, rest, hfront, rfl, hrest⟩
    exact ⟨_, ⟨front, hfront, _, mem_word_iff.mpr rfl, rfl⟩, rest, mem_star_oneOf_iff.mpr hrest, rfl⟩

/-! ## Classes -/

theorem mem_digits_iff {c : Char} : c ∈ "0123456789".toList ↔ c.isDigit = true := by
  constructor
  · intro h
    fin_cases h <;> decide
  · intro h
    simp only [Char.isDigit, Bool.and_eq_true, decide_eq_true_eq, ge_iff_le,
      UInt32.le_iff_toNat_le] at h
    obtain ⟨hzero, hnine⟩ : 48 ≤ c.toNat ∧ c.toNat ≤ 57 := h
    rw [← Char.ofNat_toNat c]
    interval_cases c.toNat <;> decide

theorem isWordThen_iff {first base : List Char} {test : Char → Bool} :
    isWordThen first test base = true ↔
      ∃ rest, base = first ++ rest ∧ ∀ c ∈ rest, test c = true := by
  unfold isWordThen
  constructor
  · intro h
    split at h
    · rename_i rest hrest
      exact ⟨rest, (List.append_eq_of_isPrefixOf?_eq_some hrest).symm, List.all_eq_true.mp h⟩
    · cases h
  · rintro ⟨rest, rfl, hrest⟩
    rw [List.isPrefixOf?_eq_some_iff_append_eq.mpr rfl]
    exact List.all_eq_true.mpr hrest

theorem isWordThen_iff_mem (text chars : String) {test : Char → Bool}
    (htest : ∀ c, test c = true ↔ c ∈ chars.toList) {base : List Char} :
    isWordThen text.toList test base = true ↔ base ∈ (word text * (oneOf chars).star).matches' := by
  rw [isWordThen_iff, mem_word_mul_star_iff]
  simp only [htest]

/-- A leading `u` is dropped from a word that does not begin with one itself. -/
theorem isWordThen_dropUnsigned_iff (text chars : String) {test : Char → Bool}
    (htest : ∀ c, test c = true ↔ c ∈ chars.toList) {first : Char} {others : List Char}
    (htext : text.toList = first :: others) (hfirst : first ≠ 'u') {base : List Char} :
    isWordThen text.toList test (dropUnsigned base) = true ↔
      base ∈ ((1 + char 'u') * word text * (oneOf chars).star).matches' := by
  rw [isWordThen_iff, mem_unsigned_iff]
  simp only [htest]
  constructor
  · rintro ⟨rest, hbase, hrest⟩
    unfold dropUnsigned at hbase
    split at hbase
    · exact ⟨['u'], rest, Or.inr rfl, by rw [hbase]; rfl, hrest⟩
    · exact ⟨[], rest, Or.inl rfl, hbase, hrest⟩
  · rintro ⟨front, rest, rfl | rfl, rfl, hrest⟩
    · refine ⟨rest, ?_, hrest⟩
      rw [htext]
      simp [dropUnsigned, hfirst]
    · exact ⟨rest, rfl, hrest⟩

theorem mem_fixedPoint_iff {c : Char} :
    (c.isDigit || c == 'x') = true ↔ c ∈ "0123456789x".toList := by
  have hchars : "0123456789x".toList = "0123456789".toList ++ ['x'] := rfl
  rw [hchars, List.mem_append, List.mem_singleton, mem_digits_iff, Bool.or_eq_true, beq_iff_eq]

theorem isWord_integer_iff {base : List Char} :
    IsWord .integer base ↔
      isWordThen ['i', 'n', 't'] Char.isDigit (dropUnsigned base) = true ∨
      isWordThen ['f', 'i', 'x', 'e', 'd'] (fun c => c.isDigit || c == 'x') (dropUnsigned base)
        = true := by
  rw [IsWord, grammar, matches'_add, Language.mem_add]
  exact or_congr
    (isWordThen_dropUnsigned_iff "int" _ (fun _ => mem_digits_iff.symm) rfl (by decide)).symm
    (isWordThen_dropUnsigned_iff "fixed" _ (fun _ => mem_fixedPoint_iff) rfl (by decide)).symm

theorem isWord_bytes_iff {base : List Char} :
    IsWord .bytes base ↔ isWordThen ['b', 'y', 't', 'e', 's'] Char.isDigit base = true :=
  (isWordThen_iff_mem "bytes" _ fun _ => mem_digits_iff.symm).symm

theorem isWord_of_class? {base : List Char} {c : Class} (h : class? base = some c) :
    IsWord c base := by
  unfold class? at h
  split_ifs at h with hint hfixed hbytes hstring hbool haddress <;> cases h
  · exact isWord_integer_iff.mpr (Or.inl hint)
  · exact isWord_integer_iff.mpr (Or.inr hfixed)
  · exact isWord_bytes_iff.mpr hbytes
  · exact mem_word_iff.mpr hstring
  · exact mem_word_iff.mpr hbool
  · exact mem_word_iff.mpr haddress

/-- The first letters of a word tell its class, whatever is tried before. -/
theorem class?_of_isWord {base : List Char} {c : Class} (h : IsWord c base) :
    class? base = some c := by
  unfold class?
  cases c with
  | integer =>
    rcases isWord_integer_iff.mp h with hint | hfixed
    · rw [if_pos hint]
    · rw [if_pos hfixed, ite_self]
  | bytes =>
    obtain ⟨rest, rfl, hrest⟩ := isWordThen_iff.mp (isWord_bytes_iff.mp h)
    have hint : isWordThen ['i', 'n', 't'] Char.isDigit
      (dropUnsigned (['b', 'y', 't', 'e', 's'] ++ rest)) = false := rfl
    have hfixed : isWordThen ['f', 'i', 'x', 'e', 'd'] (fun c => c.isDigit || c == 'x')
      (dropUnsigned (['b', 'y', 't', 'e', 's'] ++ rest)) = false := rfl
    rw [hint, hfixed, if_pos (isWord_bytes_iff.mp h)]
    rfl
  | string => rw [mem_word_iff.mp h]; rfl
  | bool => rw [mem_word_iff.mp h]; rfl
  | address => rw [mem_word_iff.mp h]; rfl

/-- **A base is of a class exactly if it is one of its words.** -/
theorem class?_eq_some_iff {base : List Char} {c : Class} : class? base = some c ↔ IsWord c base :=
  ⟨isWord_of_class?, class?_of_isWord⟩

/-- **No base is a word of two classes.** -/
theorem IsWord.unique {base : List Char} {c c' : Class} (h : IsWord c base) (h' : IsWord c' base) :
    c = c' :=
  Option.some.inj ((class?_of_isWord h).symm.trans (class?_of_isWord h'))

theorem class?_eq_none_iff {base : List Char} : class? base = none ↔ ∀ c, ¬ IsWord c base := by
  simp only [Option.eq_none_iff_forall_ne_some, ne_eq, class?_eq_some_iff]

/-! ## Base types -/

/-- What the host type of a base says about the base: which words it is one of. -/
structure IsBaseType (base : List Char) (position : Position) (type : HostType) : Prop where
  scalar : ∀ element, type ≠ array element
  integer_iff : type = integer ↔ IsWord .integer base
  bytesLike_iff : type = bytesLike ↔ position = .input ∧ IsWord .bytes base
  addressLike_iff : type = addressLike ↔ position = .input ∧ IsWord .address base
  hexString_iff : type = hexString ↔
    position = .output ∧ (IsWord .bytes base ∨ IsWord .address base)
  string_iff : type = string ↔ IsWord .string base
  bool_iff : type = bool ↔ IsWord .bool base
  unknown_iff : type = unknown ↔ ∀ c, ¬ IsWord c base

/-- **A base resolves to the type that its words stand for**, and to `unknown` if it is no word. -/
theorem isBaseType_ofBase (base : List Char) (position : Position) :
    IsBaseType base position (ofBase base position) := by
  unfold ofBase
  cases hclass : class? base with
  | none =>
    have hnone := class?_eq_none_iff.mp hclass
    constructor <;> simp [hnone]
  | some c =>
    have hword : ∀ c', IsWord c' base ↔ c = c' := by
      intro c'
      rw [← class?_eq_some_iff, hclass, Option.some.injEq]
    constructor <;> simp only [hword] <;> cases c <;> cases position <;> simp [ofClass]

/-! ## Types -/

/--
**The grammar of types.**  A type is a base with brackets behind it in exactly one way.  It resolves to the
type that the words of its base stand for, of which no base is in two classes, inside as many arrays as
there are brackets; one more pair of brackets is one more array.
-/
theorem resolve_grammar (type : String) :
    ∃ depth base, IsSplit type depth base ∧
      (∀ depth' base', IsSplit type depth' base' → depth' = depth ∧ base' = base) ∧
      (∀ c c', IsWord c base.toList → IsWord c' base.toList → c = c') ∧
      (∀ position, ∃ host, IsBaseType base.toList position host ∧
        resolve type position = host.nest depth) ∧
      ∀ position, resolve (type ++ "[]") position = array (resolve type position) := by
  obtain ⟨depth, base, hsplit⟩ := exists_isSplit type
  refine ⟨depth, base, hsplit, fun _ _ => hsplit.unique, fun _ _ => IsWord.unique, ?_, ?_⟩
  · intro position
    exact ⟨_, isBaseType_ofBase base.toList position, hsplit.resolve_eq position⟩
  · intro position
    rw [hsplit.resolve_eq, hsplit.array.resolve_eq, nest]

/-- Near misses: a length between the brackets, other digits, a line break, a missing base. -/
example :
    ["uint8[][]", "uint8[3][]", "int\u0663", "bool\n", "[]", "u", "fixedx"].map (resolve · .input) =
      [array (array integer), array unknown, unknown, unknown, array unknown, unknown, integer] := by
  decide +kernel

end ContractBindings.HostType
