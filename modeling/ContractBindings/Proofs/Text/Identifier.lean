import Mathlib
import ContractBindings.Text.Identifier

/-!
# Names that can be used

What becomes of a name from outside can stand where the generated module needs an identifier.

* `isIdentifier_append`: an identifier stays one if characters of identifiers follow;
* `isIdentifier_sanitize`: whatever the name is, the sanitised name is an identifier;
* `sanitize_of_isIdentifier`, `eq_of_sanitize_eq`: an identifier is left as it is, and nothing else becomes
  an identifier without `_`;
* `not_reserved_of_mem`: reserved words are spelled in lower-case letters, so nothing with another
  character is one of them;
* `isUsable_parameterName`: the name of a parameter is an identifier and no reserved word;
* `parameterName_eq_iff_of_letters`: a name of letters is the name of the parameter that has it, and of no
  other.
-/

set_option autoImplicit false

namespace ContractBindings.Text

variable {s t name : String} {c : Char}

/-! ## Identifiers -/

theorem isIdentifier_iff : isIdentifier s = true ↔
    ∃ c rest, s.toList = c :: rest ∧ isIdentifierStart c = true ∧
      ∀ d ∈ rest, isIdentifierPart d = true := by
  unfold isIdentifier
  cases s.toList with
  | nil => simp
  | cons c rest => simp [List.all_eq_true]

theorem isIdentifierPart_of_start (h : isIdentifierStart c = true) : isIdentifierPart c = true := by
  simp only [isIdentifierStart, isIdentifierPart, Char.isAlphanum, Bool.or_eq_true] at h ⊢
  tauto

theorem isIdentifierPart_of_isDigit (h : c.isDigit = true) : isIdentifierPart c = true := by
  simp [isIdentifierPart, Char.isAlphanum, h]

/-- A character of an identifier begins one unless it is a digit. -/
theorem isIdentifierStart_of_part (h : isIdentifierPart c = true) (hdigit : c.isDigit = false) :
    isIdentifierStart c = true := by
  simpa [isIdentifierStart, isIdentifierPart, Char.isAlphanum, hdigit] using h

theorem isIdentifierPart_of_mem (h : isIdentifier s = true) (hc : c ∈ s.toList) :
    isIdentifierPart c = true := by
  obtain ⟨first, rest, hs, hfirst, hrest⟩ := isIdentifier_iff.mp h
  rw [hs] at hc
  rcases List.mem_cons.mp hc with rfl | hc
  · exact isIdentifierPart_of_start hfirst
  · exact hrest c hc

/-- A character that no identifier has does not stand in one. -/
theorem stop_of_isIdentifier {stop : Char → Bool} (hstop : ∀ c, stop c = true → isIdentifierPart c = false)
    (h : isIdentifier s = true) : ∀ c ∈ s.toList, stop c = false := by
  intro c hc
  rw [Bool.eq_false_iff]
  intro hend
  have hpart := hstop c hend
  rw [isIdentifierPart_of_mem h hc] at hpart
  cases hpart

/-- **An identifier goes on with characters of identifiers.** -/
theorem isIdentifier_append (h : isIdentifier s = true)
    (ht : ∀ d ∈ t.toList, isIdentifierPart d = true) : isIdentifier (s ++ t) = true := by
  obtain ⟨c, rest, hs, hc, hrest⟩ := isIdentifier_iff.mp h
  refine isIdentifier_iff.mpr ⟨c, rest ++ t.toList, by simp [hs], hc, fun d hd => ?_⟩
  rcases List.mem_append.mp hd with hd | hd
  · exact hrest d hd
  · exact ht d hd

theorem isIdentifierPart_of_mem_repr {n : Nat} (h : c ∈ (Nat.repr n).toList) :
    isIdentifierPart c = true := by
  rw [Nat.toList_repr] at h
  exact isIdentifierPart_of_isDigit (Nat.isDigit_of_mem_toDigits (by decide) (by decide) h)

/-! ## Digits -/

theorem toNat_le_of_isDigit (h : c.isDigit = true) : c.val.toNat ≤ 57 := by
  simp only [Char.isDigit, Bool.and_eq_true, decide_eq_true_eq] at h
  exact UInt32.le_iff_toNat_le.mp h.2

theorem isLower_of_isDigit (h : c.isDigit = true) : c.isLower = false := by
  have hnine := toNat_le_of_isDigit h
  have hfirst : 'a'.val.toNat = 97 := rfl
  rw [Char.isLower, Bool.and_eq_false_iff, decide_eq_false_iff_not, ge_iff_le, UInt32.le_iff_toNat_le]
  left
  omega

theorem isUpper_of_isDigit (h : c.isDigit = true) : c.isUpper = false := by
  have hnine := toNat_le_of_isDigit h
  have hfirst : 'A'.val.toNat = 65 := rfl
  refine decide_eq_false fun hupper => ?_
  have hle := UInt32.le_iff_toNat_le.mp hupper.1
  omega

theorem exists_isDigit_mem (n : Nat) : ∃ d ∈ Nat.toDigits 10 n, d.isDigit = true := by
  obtain ⟨d, rest, hdigits⟩ := List.exists_cons_of_ne_nil (Nat.toDigits_ne_nil (b := 10) (n := n))
  have hmem : d ∈ Nat.toDigits 10 n := by simp [hdigits]
  exact ⟨d, hmem, Nat.isDigit_of_mem_toDigits (by decide) (by decide) hmem⟩

/-- A digit is no letter. -/
theorem isAlpha_of_isDigit (h : c.isDigit = true) : c.isAlpha = false := by
  rw [Char.isAlpha, isUpper_of_isDigit h, isLower_of_isDigit h]
  rfl

/-- No identifier begins with a digit. -/
theorem isDigit_of_isIdentifierStart (h : isIdentifierStart c = true) : c.isDigit = false := by
  by_contra hdigit
  rw [Bool.not_eq_false] at hdigit
  rw [isIdentifierStart, isAlpha_of_isDigit hdigit, Bool.false_or, Bool.or_eq_true, beq_iff_eq,
    beq_iff_eq] at h
  rcases h with rfl | rfl
  · exact absurd hdigit (by decide)
  · exact absurd hdigit (by decide)

/-! ## Sanitised names -/

theorem isIdentifierPart_sanitizeChar (c : Char) : isIdentifierPart (sanitizeChar c) = true := by
  unfold sanitizeChar
  split
  · assumption
  · decide

/-- **Every name becomes an identifier.** -/
theorem isIdentifier_sanitize (name : String) : isIdentifier (sanitize name) = true := by
  have hparts : ∀ d ∈ name.toList.map sanitizeChar, isIdentifierPart d = true := by
    intro d hd
    obtain ⟨c, _, rfl⟩ := List.mem_map.mp hd
    exact isIdentifierPart_sanitizeChar c
  rw [isIdentifier_iff, sanitize, String.toList_ofList]
  cases hchars : name.toList.map sanitizeChar with
  | nil => exact ⟨'_', [], rfl, by decide, fun d hd => by cases hd⟩
  | cons c rest =>
    rw [hchars] at hparts
    have hrest : ∀ d ∈ rest, isIdentifierPart d = true :=
      fun d hd => hparts d (List.mem_cons_of_mem _ hd)
    unfold guardStart
    cases hdigit : c.isDigit with
    | true => exact ⟨'_', c :: rest, by simp [hdigit], by decide, hparts⟩
    | false =>
      exact ⟨c, rest, by simp [hdigit], isIdentifierStart_of_part (hparts c (by simp)) hdigit, hrest⟩

/-- **An identifier is left as it is.** -/
theorem sanitize_of_isIdentifier (h : isIdentifier s = true) : sanitize s = s := by
  have hchars : s.toList.map sanitizeChar = s.toList := by
    refine (List.map_congr_left fun c hc => ?_).trans (List.map_id _)
    rw [sanitizeChar, if_pos (isIdentifierPart_of_mem h hc), id]
  obtain ⟨c, rest, hs, hc, -⟩ := isIdentifier_iff.mp h
  apply String.toList_injective
  rw [sanitize, String.toList_ofList, hchars, hs, guardStart, isDigit_of_isIdentifierStart hc]
  rfl

/-- **What becomes an identifier without `_` was that identifier.** -/
theorem eq_of_sanitize_eq (ht : '_' ∉ t.toList) (h : sanitize s = t) : s = t := by
  have hguard : guardStart (s.toList.map sanitizeChar) = t.toList := by
    rw [← h, sanitize, String.toList_ofList]
  -- neither the start nor any character has been replaced
  have hchars : s.toList.map sanitizeChar = t.toList := by
    unfold guardStart at hguard
    split at hguard
    · exact absurd (hguard ▸ by simp) ht
    · rename_i c rest hmap
      split at hguard
      · exact absurd (hguard ▸ by simp) ht
      · rw [hmap, hguard]
  have hkept : s.toList.map sanitizeChar = s.toList := by
    refine (List.map_congr_left fun c hc => ?_).trans (List.map_id _)
    have hmem : sanitizeChar c ∈ t.toList := hchars ▸ List.mem_map_of_mem hc
    unfold sanitizeChar at hmem ⊢
    split at hmem
    · rw [if_pos (by assumption), id]
    · exact absurd hmem ht
  exact String.toList_injective (hkept.symm.trans hchars)

/-! ## Reserved words -/

/-- What no reserved word has is kept out of them. -/
theorem not_reserved_of_mem (hc : c ∈ s.toList) (hlower : c.isLower = false) :
    s ∉ reservedWords := by
  have hwords : ∀ w ∈ reservedWords, w.toList.all Char.isLower = true := by decide
  intro h
  have hall := List.all_eq_true.mp (hwords s h) c hc
  rw [hlower] at hall
  cases hall

/-- A text that can be the name of a parameter. -/
structure IsUsable (name : String) : Prop where
  identifier : isIdentifier name = true
  not_reserved : name ∉ reservedWords

/-- **With a number behind it an identifier can be used**: no reserved word has a digit. -/
theorem IsUsable.append_repr (h : isIdentifier s = true) (n : Nat) : IsUsable (s ++ Nat.repr n) := by
  refine ⟨isIdentifier_append h fun d => isIdentifierPart_of_mem_repr, ?_⟩
  obtain ⟨d, hmem, hdigit⟩ := exists_isDigit_mem n
  exact not_reserved_of_mem (c := d) (by simp [hmem]) (isLower_of_isDigit hdigit)

/-! ## Names of parameters -/

/-- What becomes of a name: it is made up, guarded or sanitised. -/
theorem parameterName_cases (name : String) (index : Nat) :
    (name = "" ∧ parameterName name index = "arg" ++ Nat.repr index) ∨
    (sanitize name ∈ reservedWords ∧ parameterName name index = "_" ++ sanitize name) ∨
    (sanitize name ∉ reservedWords ∧ parameterName name index = sanitize name) := by
  unfold parameterName
  split
  · rename_i hempty
    exact Or.inl ⟨String.isEmpty_iff.mp hempty, rfl⟩
  · dsimp only
    split
    · rename_i hword
      exact Or.inr (Or.inl ⟨List.contains_iff_mem.mp hword, rfl⟩)
    · rename_i hword
      exact Or.inr (Or.inr ⟨by simpa using hword, rfl⟩)

/-- **The name of a parameter can be used**, whatever name it has in the document. -/
theorem isUsable_parameterName (name : String) (index : Nat) : IsUsable (parameterName name index) := by
  have hsanitized := isIdentifier_sanitize name
  rcases parameterName_cases name index with ⟨-, hname⟩ | ⟨-, hname⟩ | ⟨hword, hname⟩
  · rw [hname]
    exact IsUsable.append_repr (by decide) index
  · -- `_` is in no reserved word
    rw [hname]
    refine ⟨isIdentifier_append (by decide) fun d => isIdentifierPart_of_mem hsanitized, ?_⟩
    exact not_reserved_of_mem (c := '_') (by simp) (by decide)
  · rw [hname]
    exact ⟨hsanitized, hword⟩

/-- **A name that can be used is left as it is.** -/
theorem parameterName_of_isUsable (h : IsUsable s) (index : Nat) : parameterName s index = s := by
  have hkept := sanitize_of_isIdentifier h.identifier
  rcases parameterName_cases s index with ⟨rfl, -⟩ | ⟨hword, -⟩ | ⟨-, hname⟩
  · exact absurd h.identifier (by decide)
  · exact absurd (hkept ▸ hword) h.not_reserved
  · exact hname.trans hkept

/-- **A name of letters is the name of no other parameter**: rewriting puts `_` or a digit in. -/
theorem parameterName_eq_iff_of_letters (ht : IsUsable t) (halpha : t.toList.all Char.isAlpha = true)
    (index : Nat) : parameterName s index = t ↔ s = t := by
  have hletters : ∀ c ∈ t.toList, c.isAlpha = true := List.all_eq_true.mp halpha
  have hunderscore : '_' ∉ t.toList := fun hmem => absurd (hletters _ hmem) (by decide)
  constructor
  · rintro rfl
    rcases parameterName_cases s index with ⟨-, hname⟩ | ⟨-, hname⟩ | ⟨-, hname⟩
    · obtain ⟨d, hmem, hdigit⟩ := exists_isDigit_mem index
      have hletter := hletters d (by simp [hname, hmem])
      rw [isAlpha_of_isDigit hdigit] at hletter
      cases hletter
    · exact absurd (by simp [hname]) hunderscore
    · exact eq_of_sanitize_eq hunderscore hname.symm
  · rintro rfl
    exact parameterName_of_isUsable ht index

end ContractBindings.Text
