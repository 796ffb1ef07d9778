import Mathlib
import ContractBindings.Json.Printer
import ContractBindings.Json.Reader

/-!
# Scalars read back

Strings and exact integers are read as they were written.

* `stringLiteral_stringText`: every string is, whatever has to be escaped in it;
* `number_natural`, `number_negative`: every integer within 64 bits is, before anything that does not go
  on with the number (`EndsNumber`);
* `numberOfParts_isWithin`: and no other integers are read.
-/

set_option autoImplicit false

namespace ContractBindings.Json.Reader

open Text

/-! ## Strings -/

theorem value?_digit : ∀ n < 16, Hex.value? (Hex.digit n) = some n := by decide

theorem hexEscape_control {n : Nat} (h : n < 32) (rest : List Char) :
    hexEscape ('0' :: '0' :: Hex.digit (n / 16) :: Hex.digit (n % 16) :: rest) = .ok (n, rest) := by
  have hhigh := value?_digit (n / 16) (by omega)
  have hlow := value?_digit (n % 16) (by omega)
  have hzero : Hex.value? '0' = some 0 := by decide
  have hn : 4096 * 0 + 256 * 0 + 16 * (n / 16) + n % 16 = n := by omega
  simp [hexEscape, hexDigits?, hhigh, hlow, hzero]
  omega

theorem escapeSequence_control {c : Char} (h : c.toNat < 0x20) (rest : List Char) :
    escapeSequence ('u' :: '0' :: '0' :: Hex.digit (c.toNat / 16) :: Hex.digit (c.toNat % 16) :: rest) =
      .ok (c, rest) := by
  have htrailing : isTrailing c.toNat = false := by simp [isTrailing]; omega
  have hleading : isLeading c.toNat = false := by simp [isLeading]; omega
  simp [escapeSequence, hexEscape_control h, bind, Except.bind, htrailing, hleading]

/-- An escaped character is read as this character. -/
theorem stringChars_escapeChar (c : Char) (budget : Nat) (rest : List Char) :
    stringChars (budget + 1) (escapeChar c ++ rest) =
      (stringChars budget rest).map fun x => (c :: x.1, x.2) := by
  have hescaped : ∀ d : Char, ∀ more, escapeSequence more = .ok (d, rest) →
      stringChars (budget + 1) ('\\' :: more) =
        (stringChars budget rest).map fun x => (d :: x.1, x.2) := by
    intro d more hd
    rw [stringChars]
    simp only [Char.reduceEq, if_false, if_true, hd, bind, Except.bind]
    cases stringChars budget rest <;> rfl
  unfold escapeChar
  split
  · subst_vars; exact hescaped _ _ rfl
  split
  · subst_vars; exact hescaped _ _ rfl
  split
  · subst_vars; exact hescaped _ _ rfl
  split
  · subst_vars; exact hescaped _ _ rfl
  split
  · subst_vars; exact hescaped _ _ rfl
  split
  · subst_vars; exact hescaped _ _ rfl
  split
  · subst_vars; exact hescaped _ _ rfl
  split
  · rename_i h
    exact hescaped c _ (escapeSequence_control h rest)
  · rename_i hquote hslash _ _ _ _ _ hcontrol
    rw [List.singleton_append, stringChars]
    simp only [hquote, hslash, hcontrol, if_false]
    cases stringChars budget rest <;> rfl

/-- The characters of a string are read back, if the budget is enough for them. -/
theorem stringChars_escaped {cs : List Char} {budget : Nat} (h : cs.length < budget)
    (rest : List Char) :
    stringChars budget (cs.flatMap escapeChar ++ '"' :: rest) = .ok (cs, rest) := by
  induction cs generalizing budget with
  | nil =>
    obtain ⟨k, rfl⟩ : ∃ k, budget = k + 1 := ⟨budget - 1, by simp at h; omega⟩
    simp [stringChars]
  | cons c cs ih =>
    obtain ⟨k, rfl⟩ : ∃ k, budget = k + 1 := ⟨budget - 1, by simp at h; omega⟩
    rw [List.flatMap_cons, List.append_assoc, stringChars_escapeChar,
      ih (by simp at h; omega)]
    rfl

theorem length_le_length_escaped (cs : List Char) : cs.length ≤ (cs.flatMap escapeChar).length := by
  induction cs with
  | nil => simp
  | cons c cs ih =>
    have hpos : 1 ≤ (escapeChar c).length := by
      unfold escapeChar
      repeat' split
      all_goals simp
    rw [List.flatMap_cons, List.length_append, List.length_cons]
    omega

/-- **Every string is read back.** -/
theorem stringLiteral_stringText {s : String} {budget : Nat} (h : (stringText s).length < budget)
    (rest : List Char) :
    stringLiteral budget (s.toList.flatMap escapeChar ++ '"' :: rest) = .ok (s, rest) := by
  have hlen := length_le_length_escaped s.toList
  have hbudget : s.toList.length < budget := by
    rw [stringText, List.length_append, List.length_cons] at h
    omega
  have hchars := stringChars_escaped hbudget rest
  simp [stringLiteral, hchars, bind, Except.bind]

/-! ## Integers -/

/-- What does not go on with a number. -/
def EndsNumber (rest : List Char) : Prop :=
  ∀ c, rest.head? = some c → c.isDigit = false ∧ c ≠ '.' ∧ c ≠ 'e' ∧ c ≠ 'E'

theorem fractionDigits_of_endsNumber {rest : List Char} (h : EndsNumber rest) :
    fractionDigits rest = .ok (none, rest) := by
  unfold fractionDigits
  split
  · exact absurd rfl (h _ rfl).2.1
  · rfl

theorem exponentDigits_of_endsNumber {rest : List Char} (h : EndsNumber rest) :
    exponentDigits rest = .ok (none, rest) := by
  cases rest with
  | nil => rfl
  | cons c cs =>
    obtain ⟨_, _, he, hE⟩ := h c rfl
    simp [exponentDigits, he, hE]

theorem takeWhile_digits {ds rest : List Char} (hds : ∀ c ∈ ds, c.isDigit = true)
    (h : EndsNumber rest) :
    (ds ++ rest).takeWhile Char.isDigit = ds ∧ (ds ++ rest).dropWhile Char.isDigit = rest := by
  have hrest : rest.takeWhile Char.isDigit = [] ∧ rest.dropWhile Char.isDigit = rest := by
    cases rest with
    | nil => exact ⟨rfl, rfl⟩
    | cons c cs => simp [(h c rfl).1]
  exact ⟨by rw [List.takeWhile_append_of_pos hds, hrest.1, List.append_nil],
    by rw [List.dropWhile_append_of_pos hds, hrest.2]⟩

theorem digits_of_mem {n : Nat} {c : Char} (h : c ∈ Nat.toDigits 10 n) : c.isDigit = true :=
  Nat.isDigit_of_mem_toDigits (by decide) (by decide) h

/-- No number but zero begins with the digit zero. -/
theorem head_toDigits {n : Nat} (h : 0 < n) : (Nat.toDigits 10 n).head? ≠ some '0' := by
  induction n using Nat.strongRecOn with
  | ind n ih =>
    by_cases hlt : n < 10
    · rw [Nat.toDigits_of_lt_base hlt]
      revert h
      interval_cases n <;> decide
    · rw [Nat.toDigits_of_base_le (by decide) (by omega),
        List.head?_append_of_ne_nil _ Nat.toDigits_ne_nil]
      exact ih (n / 10) (by omega) (by omega)

theorem wholeDigits_toDigits (n : Nat) {rest : List Char} (h : EndsNumber rest) :
    wholeDigits (Nat.toDigits 10 n ++ rest) =
      .ok ((Nat.toDigits 10 n).map fun c => c.toNat - 48, rest) := by
  obtain ⟨htake, hdrop⟩ := takeWhile_digits (fun c hc => digits_of_mem (n := n) hc) h
  by_cases hn : n = 0
  · subst hn
    rw [Nat.toDigits_zero]
    cases rest with
    | nil => rfl
    | cons c cs => simp [wholeDigits, (h c rfl).1]
  · obtain ⟨c, cs, hcs⟩ := List.exists_cons_of_ne_nil (Nat.toDigits_ne_nil (n := n) (b := 10))
    have hhead := head_toDigits (Nat.pos_of_ne_zero hn)
    rw [hcs] at hhead htake hdrop ⊢
    have hzero : c ≠ '0' := by simpa using hhead
    have hdigit : c.isDigit = true := digits_of_mem (n := n) (by rw [hcs]; simp)
    rw [List.cons_append] at htake hdrop ⊢
    simp only [wholeDigits, hzero, if_false, hdigit, if_true, digitsOf, afterDigits, htake, hdrop]

/-- Digits whose number fits are all gathered. -/
theorem gather_foldl (ds : List Nat) (n : Nat)
    (h : ds.foldl (fun n d => 10 * n + d) n < wordLimit) :
    ds.foldl (fun (n, raised) d =>
      if raised = 0 ∧ 10 * n + d < wordLimit then (10 * n + d, 0) else (n, raised + 1)) (n, 0) =
      (ds.foldl (fun n d => 10 * n + d) n, 0) := by
  have hgrow : ∀ (ds : List Nat) (n : Nat), n ≤ ds.foldl (fun n d => 10 * n + d) n := by
    intro ds
    induction ds with
    | nil => simp
    | cons d ds ih =>
      intro n
      have := ih (10 * n + d)
      rw [List.foldl_cons]
      omega
  induction ds generalizing n with
  | nil => rfl
  | cons d ds ih =>
    rw [List.foldl_cons] at h
    have hfits : 10 * n + d < wordLimit := Nat.lt_of_le_of_lt (hgrow ds (10 * n + d)) h
    rw [List.foldl_cons, List.foldl_cons]
    show ds.foldl _ (if 0 = 0 ∧ 10 * n + d < wordLimit then (10 * n + d, 0) else (n, 0 + 1)) = _
    rw [if_pos ⟨rfl, hfits⟩]
    exact ih _ h

theorem gatherWhole_toDigits {n : Nat} (h : n < wordLimit) :
    gatherWhole ((Nat.toDigits 10 n).map fun c => c.toNat - 48) = (n, 0) := by
  have hvalue : ((Nat.toDigits 10 n).map fun c => c.toNat - 48).foldl (fun n d => 10 * n + d) 0 = n := by
    rw [List.foldl_map]
    exact Nat.ofDigitChars_ten_toDigits
  rw [gatherWhole, gather_foldl _ _ (by rw [hvalue]; exact h), hvalue]

theorem numeral_toDigits (n : Nat) {rest : List Char} (h : EndsNumber rest) :
    numeral (Nat.toDigits 10 n ++ rest) =
      .ok (((Nat.toDigits 10 n).map fun c => c.toNat - 48, none, none), rest) := by
  simp [numeral, wholeDigits_toDigits n h, fractionDigits_of_endsNumber h,
    exponentDigits_of_endsNumber h, bind, Except.bind]

/-- **Every natural number below the limit is read back.** -/
theorem number_natural {n : Nat} (hn : n < wordLimit) {rest : List Char} (h : EndsNumber rest) :
    number false (Nat.toDigits 10 n ++ rest) = .ok (.integer n, rest) := by
  simp [number, numeral_toDigits n h, numberOfParts, gatherWhole_toDigits hn, bind, Except.bind]

/-- **So is every negative one within 64 bits.** -/
theorem number_negative {n : Nat} (hpos : 0 < n) (hn : n ≤ 9223372036854775808) {rest : List Char}
    (h : EndsNumber rest) :
    number true (Nat.toDigits 10 n ++ rest) = .ok (.integer (-n), rest) := by
  have hlimit : n < wordLimit := by unfold wordLimit; omega
  simp [number, numeral_toDigits n h, numberOfParts, gatherWhole_toDigits hlimit, hpos, hn, bind,
    Except.bind]

/-- The integers of 64 bits, with a sign or without. -/
def IsWithin (n : Int) : Prop := -9223372036854775808 ≤ n ∧ n < 18446744073709551616

theorem gatherWhole_lt (digits : List Nat) : (gatherWhole digits).1 < wordLimit := by
  have hstep : ∀ (ds : List Nat) (n raised : Nat), n < wordLimit →
      (ds.foldl (fun (n, raised) d =>
        if raised = 0 ∧ 10 * n + d < wordLimit then (10 * n + d, 0) else (n, raised + 1))
        (n, raised)).1 < wordLimit := by
    intro ds
    induction ds with
    | nil => exact fun n raised h => h
    | cons d ds ih =>
      intro n raised h
      rw [List.foldl_cons]
      show (ds.foldl _ (if raised = 0 ∧ 10 * n + d < wordLimit then (10 * n + d, 0)
        else (n, raised + 1))).1 < wordLimit
      by_cases hd : raised = 0 ∧ 10 * n + d < wordLimit
      · rw [if_pos hd]; exact ih _ _ hd.2
      · rw [if_neg hd]; exact ih _ _ h
  exact hstep digits 0 0 (by decide)

theorem realNumber_ne_integer {negative : Bool} {digits : Nat} {exponent n : Int} {rest : List Char} :
    realNumber negative digits exponent rest ≠ .ok (.integer n) := by
  unfold realNumber
  split <;> simp

/-- **No other integers are read.** -/
theorem numberOfParts_isWithin {negative : Bool} {whole : List Nat} {fraction : Option (List Nat)}
    {exponent : Option (Bool × List Nat)} {rest : List Char} {n : Int}
    (h : numberOfParts negative whole fraction exponent rest = .ok (.integer n)) : IsWithin n := by
  have hlt := gatherWhole_lt whole
  unfold wordLimit at hlt
  unfold numberOfParts at h
  split at h
  rename_i m raised hm
  rw [hm] at hlt
  split at h
  · split at h
    · cases h
      constructor <;> omega
    · split at h
      · cases h
        constructor <;> omega
      · exact absurd h realNumber_ne_integer
  · -- with a fraction or an exponent the number is no integer
    simp only at h
    split at h
    · exact absurd h realNumber_ne_integer
    · split at h
      · exact absurd h realNumber_ne_integer
      · split at h <;> cases h

end ContractBindings.Json.Reader
