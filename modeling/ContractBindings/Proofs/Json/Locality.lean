import ContractBindings.Proofs.Json.Readers

/-!
# What a reader takes

A reader takes its value from a part at the front of the text.  Before another rest the same part is read as
the same value, if only the next character is the same or does not go on with a number.

* `Reader.IsLocal`: this, with the budget that the part needs;
* `isLocal_stringLiteral`, `isLocal_number`: the readers of scalars are local;
* `isLocal_elements`, `isLocal_members`: those of containers are if the reader of what they hold is;
* `isLocal_value`: so values are read alike by every reader that goes as deep, by induction on the depth.
-/

set_option autoImplicit false

namespace ContractBindings.Json

open Reader

/-- A reader does not tell the texts apart by their next character. -/
def Agree (rest rest' : List Char) : Prop := rest'.head? = rest.head? ∨ EndsNumber rest'

/-- What the first reader reads from a part of a text, the others read from the same part. -/
def Reader.IsLocal {α : Type} (r : Reader α) (r' : Nat → Reader α) : Prop :=
  ∀ ⦃cs : List Char⦄ ⦃x : α⦄ ⦃rest : List Char⦄, r cs = .ok (x, rest) → ∃ used, cs = used ++ rest ∧
    ∀ ⦃budget : Nat⦄ ⦃rest' : List Char⦄, used.length < budget → Agree rest rest' →
      r' budget (used ++ rest') = .ok (x, rest')

theorem Agree.refl (rest : List Char) : Agree rest rest := Or.inl rfl

theorem agree_nil (rest : List Char) : Agree rest [] := Or.inr (by simp [EndsNumber])

theorem Agree.append {rest rest' : List Char} (h : Agree rest rest') (used : List Char) :
    Agree (used ++ rest) (used ++ rest') := by
  cases used with
  | nil => exact h
  | cons c used => exact Or.inl rfl

/-- A text in front of which there is a character of its own. -/
theorem agree_cons (c : Char) (rest rest' : List Char) : Agree (c :: rest) (c :: rest') := Or.inl rfl

theorem skipBlanks_cases (cs : List Char) :
    ∃ blanks, cs = blanks ++ skipBlanks cs ∧ ∀ c ∈ blanks, isBlank c = true :=
  ⟨cs.takeWhile isBlank, List.takeWhile_append_dropWhile.symm, fun _ => List.mem_takeWhile_imp⟩

theorem skipBlanks_append {blanks : List Char} (h : ∀ c ∈ blanks, isBlank c = true) (cs : List Char) :
    skipBlanks (blanks ++ cs) = skipBlanks cs := List.dropWhile_append_of_pos h

/-- A character is found behind blanks, before any text. -/
theorem exists_of_skipBlanks {cs rest : List Char} {c : Char} (h : skipBlanks cs = c :: rest) :
    ∃ blanks, cs = blanks ++ c :: rest ∧ ∀ rest', skipBlanks (blanks ++ c :: rest') = c :: rest' := by
  obtain ⟨blanks, hcs, hblanks⟩ := skipBlanks_cases cs
  have hc : isBlank c = false := by
    have hhead := List.head?_dropWhile_not isBlank cs
    rw [← skipBlanks, h] at hhead
    simpa using hhead
  refine ⟨blanks, h ▸ hcs, fun rest' => ?_⟩
  rw [skipBlanks_append hblanks, skipBlanks_of_not_blank hc]

namespace Reader

variable {α β : Type}

/-! ## Putting readers together -/

/-- A local reader that reads nothing from the empty text takes at least one character. -/
theorem IsLocal.exists_cons {r : Reader α} {r' : Nat → Reader α} (h : r.IsLocal r')
    (hnil : ∀ budget p, r' budget [] ≠ .ok p) {cs rest : List Char} {x : α}
    (hr : r cs = .ok (x, rest)) :
    ∃ c used, cs = c :: used ++ rest ∧
      ∀ ⦃budget : Nat⦄ ⦃rest' : List Char⦄, (c :: used).length < budget → Agree rest rest' →
        r' budget (c :: used ++ rest') = .ok (x, rest') := by
  obtain ⟨used, hcs, hused⟩ := h hr
  cases used with
  | nil => exact absurd (hused (Nat.lt_succ_self _) (agree_nil rest)) (hnil _ _)
  | cons c used => exact ⟨c, used, hcs, hused⟩

/-- One reader behind another one. -/
theorem IsLocal.bind {r : Reader α} {r' : Nat → Reader α} {s : α → Reader β} {s' : α → Nat → Reader β}
    (hr : r.IsLocal r') (hs : ∀ a, (s a).IsLocal (s' a)) :
    Reader.IsLocal (fun cs => r cs >>= fun p => s p.1 p.2)
      (fun budget cs => r' budget cs >>= fun p => s' p.1 budget p.2) := by
  intro cs y rest h
  obtain ⟨⟨a, next⟩, ha, hb⟩ := bind_eq_ok.mp h
  obtain ⟨used, rfl, hused⟩ := hr ha
  obtain ⟨more, rfl, hmore⟩ := hs a hb
  refine ⟨used ++ more, (List.append_assoc ..).symm, fun budget rest' hbudget hagree => ?_⟩
  rw [List.length_append] at hbudget
  rw [List.append_assoc]
  exact bind_eq_ok.mpr ⟨_, hused (by omega) (hagree.append more), hmore (by omega) hagree⟩

/-- What is read is wrapped up. -/
theorem IsLocal.map {r : Reader α} {r' : Nat → Reader α} (hr : r.IsLocal r') (f : α → β) :
    Reader.IsLocal (fun cs => r cs >>= fun p => .ok (f p.1, p.2))
      (fun budget cs => r' budget cs >>= fun p => .ok (f p.1, p.2)) := by
  intro cs y rest h
  obtain ⟨⟨a, next⟩, ha, hb⟩ := bind_eq_ok.mp h
  cases hb
  obtain ⟨used, hcs, hused⟩ := hr ha
  exact ⟨used, hcs, fun budget rest' hbudget hagree => bind_eq_ok.mpr ⟨_, hused hbudget hagree, rfl⟩⟩

/-- What is there without reading is there before every text. -/
theorem isLocal_pure (x : α) : Reader.IsLocal (fun cs => .ok (x, cs)) fun _ cs => .ok (x, cs) := by
  intro cs y rest hr
  cases hr
  exact ⟨[], rfl, fun _ _ _ _ => rfl⟩

/-- Where nothing is read there is nothing to compare. -/
theorem isLocal_error (fault : List Char → Fault) (r' : Nat → Reader α) :
    Reader.IsLocal (fun cs => .error (fault cs)) r' := nofun

theorem IsLocal.shift {r : Reader α} {r' : Nat → Reader α} (h : r.IsLocal r') (k : Nat) :
    r.IsLocal fun budget => r' (budget + k) := by
  intro cs x rest hr
  obtain ⟨used, hcs, hused⟩ := h hr
  exact ⟨used, hcs, fun budget rest' hbudget hagree => hused (by omega) hagree⟩

/-- One of two readers, by a test that does not look at the text. -/
theorem IsLocal.ite {p : Prop} [Decidable p] {r s : Reader α} {r' s' : Nat → Reader α} (hr : r.IsLocal r')
    (hs : s.IsLocal s') : Reader.IsLocal (fun cs => if p then r cs else s cs)
      fun budget cs => if p then r' budget cs else s' budget cs := by
  by_cases hp : p
  · simpa only [hp, if_true] using hr
  · simpa only [hp, if_false] using hs

/-- A reader is local if it is so behind the first character, whichever this is. -/
theorem IsLocal.of_cons {r : Reader α} {r' : Nat → Reader α} (hnil : ∀ p, r [] ≠ .ok p)
    (h : ∀ c, Reader.IsLocal (fun cs => r (c :: cs)) fun budget cs => r' (budget + 1) (c :: cs)) :
    r.IsLocal r' := by
  intro cs x rest hr
  cases cs with
  | nil => exact absurd hr (hnil _)
  | cons c cs =>
    obtain ⟨used, rfl, hused⟩ := h c hr
    refine ⟨c :: used, rfl, fun budget rest' hbudget hagree => ?_⟩
    obtain ⟨budget, rfl⟩ := Nat.exists_eq_add_one.mpr (Nat.zero_lt_of_lt hbudget)
    exact hused (Nat.lt_of_succ_lt_succ hbudget) hagree

/-- And so it is behind the first character then. -/
theorem IsLocal.cons {r : Reader α} {r' : Nat → Reader α} (h : r.IsLocal r')
    (hnil : ∀ budget p, r' budget [] ≠ .ok p) (c : Char) :
    Reader.IsLocal (fun cs => r (c :: cs)) fun budget cs => r' (budget + 1) (c :: cs) := by
  intro cs x rest hr
  obtain ⟨d, used, hcs, hused⟩ := h.exists_cons hnil hr
  cases hcs
  exact ⟨used, rfl, fun budget rest' hbudget hagree => hused (Nat.succ_lt_succ hbudget) hagree⟩

/-- The first character says which reader goes on behind it. -/
theorem IsLocal.head {r : Char → Reader α} {r' : Char → Nat → Reader α} (h : ∀ c, (r c).IsLocal (r' c))
    (atEnd : Fault) : Reader.IsLocal (fun | [] => .error atEnd | c :: cs => r c cs)
      fun budget => fun | [] => .error atEnd | c :: cs => r' c budget cs :=
  .of_cons nofun fun c => (h c).shift 1

/-- Blanks are skipped first. -/
theorem IsLocal.afterBlanks {r : Reader α} {r' : Nat → Reader α} (h : r.IsLocal r')
    (hnil : ∀ budget p, r' budget [] ≠ .ok p) :
    Reader.IsLocal (fun cs => r (skipBlanks cs)) fun budget cs => r' budget (skipBlanks cs) := by
  intro cs x rest hr
  obtain ⟨c, used, hskip, hused⟩ := h.exists_cons hnil hr
  obtain ⟨blanks, rfl, hblanks⟩ := exists_of_skipBlanks hskip
  refine ⟨blanks ++ c :: used, by simp, fun budget rest' hbudget hagree => ?_⟩
  rw [List.length_append] at hbudget
  have hread : r' budget (c :: used ++ rest') = .ok (x, rest') := hused (by omega) hagree
  rw [List.append_assoc]
  simp only [List.cons_append, hblanks]
  exact hread

/-! ## Names and strings -/

theorem isLocal_keyword (ks : List Char) : (keyword ks).IsLocal fun _ => keyword ks := by
  induction ks with
  | nil => exact isLocal_pure ()
  | cons k ks ih => exact .of_cons nofun fun c => ih.ite (isLocal_error _ _)

theorem isLocal_hexEscape : hexEscape.IsLocal fun _ => hexEscape := by
  intro cs x rest h
  unfold hexEscape at h
  split at h
  · rename_i a b c d more
    split at h
    · rename_i n hn
      cases h
      refine ⟨[a, b, c, d], rfl, fun _ _ _ _ => ?_⟩
      simp only [List.cons_append, List.nil_append, hexEscape, hn]
    · cases h
  · cases h

theorem isLocal_trailingEscape (leading : Nat) :
    (trailingEscape leading).IsLocal fun _ => trailingEscape leading := by
  intro cs x rest h
  unfold trailingEscape at h
  split at h
  · obtain ⟨⟨n, next⟩, hn, hr⟩ := bind_eq_ok.mp h
    obtain ⟨used, rfl, hused⟩ := isLocal_hexEscape hn
    dsimp only at hr
    split at hr
    · rename_i htrailing
      rw [Except.ok.injEq, Prod.mk.injEq] at hr
      obtain ⟨rfl, rfl⟩ := hr
      refine ⟨'\\' :: 'u' :: used, rfl, fun budget rest' _ hagree => ?_⟩
      have hread := hused (Nat.lt_succ_self _) hagree
      simp only [List.cons_append, trailingEscape, hread, bind, Except.bind, htrailing, if_true]
    · cases hr
  all_goals cases h

/-- What a number in an escape stands for; one of the first half of a surrogate pair needs the second. -/
def numberEscape (n : Nat) : Reader Char := fun rest =>
  if isTrailing n then .error (.before .loneSurrogate rest)
  else if isLeading n then trailingEscape n rest
  else .ok (Char.ofNat n, rest)

theorem isLocal_numberEscape (n : Nat) : (numberEscape n).IsLocal fun _ => numberEscape n :=
  (isLocal_error _ _).ite ((isLocal_trailingEscape n).ite (isLocal_pure _))

theorem escapeSequence_number (cs : List Char) :
    escapeSequence ('u' :: cs) = hexEscape cs >>= fun p => numberEscape p.1 p.2 := rfl

theorem escapeSequence_simple {c : Char} (h : c ≠ 'u') (cs : List Char) :
    escapeSequence (c :: cs) = match simpleEscape? c with
      | some d => .ok (d, cs)
      | none => .error (.first .invalidEscape (c :: cs)) := by
  unfold escapeSequence
  split
  · contradiction
  · rename_i hcons
    exact absurd (List.cons.inj hcons).1 h
  · rename_i hcons
    cases hcons
    rfl

theorem isLocal_escapeSequence : escapeSequence.IsLocal fun _ => escapeSequence := by
  refine .of_cons nofun fun c => ?_
  by_cases hu : c = 'u'
  · subst hu
    simp only [escapeSequence_number]
    exact isLocal_hexEscape.bind isLocal_numberEscape
  · simp only [escapeSequence_simple hu]
    cases simpleEscape? c with
    | none => exact isLocal_error _ _
    | some d => exact isLocal_pure d

theorem isLocal_stringChars (n : Nat) : (stringChars n).IsLocal stringChars := by
  induction n with
  | zero => exact nofun
  | succ n ih =>
    refine .of_cons nofun fun c => (isLocal_pure []).ite (IsLocal.ite ?_ ((isLocal_error _ _).ite ?_))
    · exact isLocal_escapeSequence.bind fun d => ih.map (d :: ·)
    · exact ih.map (c :: ·)

theorem isLocal_stringLiteral (n : Nat) : (stringLiteral n).IsLocal stringLiteral :=
  (isLocal_stringChars n).map String.ofList

/-! ## Numbers -/

/-- What holds of the next character holds before a text that agrees. -/
theorem head_of_agree {rest rest' : List Char} {P : Char → Prop} (h : Agree rest rest')
    (hrest : ∀ c, rest.head? = some c → P c)
    (hends : ∀ c : Char, c.isDigit = false ∧ c ≠ '.' ∧ c ≠ 'e' ∧ c ≠ 'E' → P c) :
    ∀ c, rest'.head? = some c → P c := by
  intro c hc
  rcases h with h | h
  · exact hrest c (h ▸ hc)
  · exact hends c (h c hc)

theorem head_afterDigits (cs : List Char) : ∀ c, (afterDigits cs).head? = some c → c.isDigit = false := by
  intro c hc
  have hhead := List.head?_dropWhile_not Char.isDigit cs
  rw [← afterDigits, hc] at hhead
  simpa using hhead

/-- Digits are followed by any text that agrees with the one behind them. -/
theorem digits_append {cs rest' : List Char} (h : Agree (afterDigits cs) rest') :
    digitsOf (cs.takeWhile Char.isDigit ++ rest') = digitsOf cs ∧
      afterDigits (cs.takeWhile Char.isDigit ++ rest') = rest' := by
  have hdigits : ∀ c ∈ cs.takeWhile Char.isDigit, c.isDigit = true := fun _ => List.mem_takeWhile_imp
  have hstop := head_of_agree h (head_afterDigits cs) fun _ hc => hc.1
  have hnone : rest'.takeWhile Char.isDigit = [] ∧ rest'.dropWhile Char.isDigit = rest' := by
    cases rest' with
    | nil => exact ⟨rfl, rfl⟩
    | cons c rest' => simp [hstop c rfl]
  constructor
  · rw [digitsOf, List.takeWhile_append_of_pos hdigits, hnone.1, List.append_nil, digitsOf]
  · rw [afterDigits, List.dropWhile_append_of_pos hdigits, hnone.2]

theorem isLocal_someDigits : Reader.IsLocal someDigits fun _ => someDigits := by
  intro cs digits rest h
  unfold someDigits at h
  split at h
  · split at h <;> cases h
  · rename_i hne
    cases h
    refine ⟨cs.takeWhile Char.isDigit, List.takeWhile_append_dropWhile.symm, fun _ rest' _ hagree => ?_⟩
    obtain ⟨hdigits, hafter⟩ := digits_append hagree
    show someDigits _ = _
    unfold someDigits
    rw [hdigits, hafter]
    split
    · rename_i hnil
      exact absurd hnil hne
    · rfl

theorem wholeDigits_zero {rest : List Char} (h : ∀ c, rest.head? = some c → c.isDigit = false) :
    wholeDigits ('0' :: rest) = .ok ([0], rest) := by
  cases rest with
  | nil => rfl
  | cons c rest => simp [wholeDigits, h c rfl]

theorem isLocal_wholeDigits : wholeDigits.IsLocal fun _ => wholeDigits := by
  intro cs digits rest h
  unfold wholeDigits at h
  split at h
  · cases h
  rename_i c cs
  split at h
  · rename_i hzero
    subst hzero
    have hend : digits = [0] ∧ rest = cs ∧ ∀ d, cs.head? = some d → d.isDigit = false := by
      split at h
      · cases h
        exact ⟨rfl, rfl, by simp⟩
      · split at h
        · cases h
        · rename_i hdigit
          cases h
          exact ⟨rfl, rfl, by simpa using hdigit⟩
    obtain ⟨rfl, rfl, hdigit⟩ := hend
    exact ⟨['0'], rfl, fun _ rest' _ hagree =>
      wholeDigits_zero (head_of_agree hagree hdigit fun _ hc => hc.1)⟩
  rename_i hzero
  split at h
  · rename_i hdigit
    cases h
    have htake : (c :: cs).takeWhile Char.isDigit = c :: cs.takeWhile Char.isDigit := by simp [hdigit]
    refine ⟨(c :: cs).takeWhile Char.isDigit, List.takeWhile_append_dropWhile.symm,
      fun _ rest' _ hagree => ?_⟩
    obtain ⟨hdigits, hafter⟩ := digits_append hagree
    rw [htake, List.cons_append] at hdigits hafter ⊢
    simp only [wholeDigits, hzero, if_false, hdigit, if_true, hdigits, hafter]
  · cases h

theorem isLocal_fractionDigits : fractionDigits.IsLocal fun _ => fractionDigits := by
  intro cs fraction rest h
  unfold fractionDigits at h
  split at h
  · obtain ⟨⟨digits, next⟩, hdigits, hr⟩ := bind_eq_ok.mp h
    cases hr
    obtain ⟨used, rfl, hused⟩ := isLocal_someDigits hdigits
    refine ⟨'.' :: used, rfl, fun _ rest' _ hagree => ?_⟩
    have hread := hused (Nat.lt_succ_self _) hagree
    simp only [List.cons_append, fractionDigits, hread, bind, Except.bind]
  · rename_i hpoint
    cases h
    refine ⟨[], rfl, fun _ rest' _ hagree => ?_⟩
    have hhead := head_of_agree (P := (· ≠ '.')) hagree
      (by rintro c hc rfl
          obtain ⟨_, htail⟩ := List.head?_eq_some_iff.mp hc
          exact hpoint _ htail)
      fun _ hc => hc.2.1
    show fractionDigits rest' = _
    unfold fractionDigits
    split
    · exact absurd rfl (hhead _ rfl)
    · rfl

/-- The sign of an exponent, `true` for a minus, and the text behind it. -/
def signOf : List Char → Bool × List Char
  | '+' :: cs => (false, cs)
  | '-' :: cs => (true, cs)
  | cs => (false, cs)

theorem signOf_of_ne {cs : List Char} (hplus : ∀ ds, cs = '+' :: ds → False)
    (hminus : ∀ ds, cs = '-' :: ds → False) : signOf cs = (false, cs) := by
  rw [signOf]
  · exact hplus
  · exact hminus

theorem exponentDigits_cons {c : Char} (he : c = 'e' ∨ c = 'E') (cs : List Char) :
    exponentDigits (c :: cs) =
      someDigits (signOf cs).2 >>= fun p => .ok (some ((signOf cs).1, p.1), p.2) := by
  unfold exponentDigits
  simp only [he, if_true]
  split
  · rfl
  · rfl
  · rename_i hplus hminus
    rw [signOf_of_ne hplus hminus]

/-- A sign is taken as the same before any digits that start alike. -/
theorem exists_of_signOf {cs digits : List Char} {d : Char} (h : (signOf cs).2 = d :: digits) :
    ∃ sign, cs = sign ++ d :: digits ∧
      ∀ digits', signOf (sign ++ d :: digits') = ((signOf cs).1, d :: digits') := by
  unfold signOf at h
  split at h
  · cases h
    exact ⟨['+'], rfl, fun _ => rfl⟩
  · cases h
    exact ⟨['-'], rfl, fun _ => rfl⟩
  · rename_i hplus hminus
    cases h
    have hother : ∀ digits', signOf (d :: digits') = (false, d :: digits') := fun digits' =>
      signOf_of_ne (fun _ hd => hplus _ (congrArg (· :: digits) (List.cons.inj hd).1))
        fun _ hd => hminus _ (congrArg (· :: digits) (List.cons.inj hd).1)
    exact ⟨[], rfl, fun digits' => by rw [hother digits, List.nil_append, hother]⟩

theorem isLocal_exponentDigits : exponentDigits.IsLocal fun _ => exponentDigits := by
  intro cs exponent rest h
  cases cs with
  | nil =>
    cases h
    refine ⟨[], rfl, fun _ rest' _ hagree => ?_⟩
    have hends : EndsNumber rest' := hagree.elim (fun h => by simp [EndsNumber, h]) id
    exact exponentDigits_of_endsNumber hends
  | cons c cs =>
    by_cases he : c = 'e' ∨ c = 'E'
    · rw [exponentDigits_cons he] at h
      obtain ⟨⟨ds, next⟩, hds, hr⟩ := bind_eq_ok.mp h
      cases hr
      have hnil : ∀ (budget : Nat) p, (fun _ => someDigits) budget [] ≠ .ok p := by
        intro budget p hp
        cases hp
      obtain ⟨d, used, hcs, hused⟩ := isLocal_someDigits.exists_cons hnil hds
      obtain ⟨sign, rfl, hsign⟩ := exists_of_signOf hcs
      refine ⟨c :: (sign ++ d :: used), by simp, fun _ rest' _ hagree => ?_⟩
      have hread : someDigits (d :: (used ++ rest')) = .ok (ds, rest') := hused (Nat.lt_succ_self _) hagree
      show exponentDigits (c :: ((sign ++ d :: used) ++ rest')) = _
      rw [List.append_assoc, List.cons_append, exponentDigits_cons he, hsign]
      exact bind_eq_ok.mpr ⟨_, hread, rfl⟩
    · unfold exponentDigits at h
      simp only [he, if_false] at h
      cases h
      refine ⟨[], rfl, fun _ rest' _ hagree => ?_⟩
      have hhead := head_of_agree (P := fun d => ¬ (d = 'e' ∨ d = 'E')) hagree
        (by rintro d ⟨⟩
            exact he)
        fun _ hd => not_or.mpr hd.2.2
      show exponentDigits rest' = _
      cases rest' with
      | nil => rfl
      | cons d rest' => simp only [exponentDigits, hhead d rfl, if_false]

theorem realNumber_congr {negative : Bool} {digits : Nat} {exponent : Int} {n : Number}
    {rest rest' : List Char} (h : realNumber negative digits exponent rest = .ok n) :
    realNumber negative digits exponent rest' = .ok n := by
  unfold realNumber at h ⊢
  split at h
  · exact h
  · cases h

/-- What a number is does not depend on what follows it. -/
theorem numberOfParts_congr {negative : Bool} {whole : List Nat} {fraction : Option (List Nat)}
    {exponent : Option (Bool × List Nat)} {n : Number} {rest rest' : List Char}
    (h : numberOfParts negative whole fraction exponent rest = .ok n) :
    numberOfParts negative whole fraction exponent rest' = .ok n := by
  unfold numberOfParts at h ⊢
  split at h
  split at h
  · split at h
    · rwa [if_pos ‹_›]
    rw [if_neg ‹_›]
    split at h
    · rwa [if_pos ‹_›]
    · rw [if_neg ‹_›]
      exact realNumber_congr h
  · simp only at h ⊢
    split at h
    · exact realNumber_congr h
    split at h
    · exact realNumber_congr h
    split at h
    · rwa [if_pos ‹_›]
    · cases h

theorem isLocal_numeral : numeral.IsLocal fun _ => numeral :=
  isLocal_wholeDigits.bind fun whole => isLocal_fractionDigits.bind fun fraction =>
    isLocal_exponentDigits.map fun exponent => (whole, fraction, exponent)

theorem isLocal_number (negative : Bool) : (number negative).IsLocal fun _ => number negative := by
  intro cs n rest h
  obtain ⟨⟨⟨whole, fraction, exponent⟩, next⟩, hparts, hr⟩ := bind_eq_ok.mp h
  obtain ⟨m, hm, hr⟩ := bind_eq_ok.mp hr
  cases hr
  obtain ⟨used, hcs, hused⟩ := isLocal_numeral hparts
  refine ⟨used, hcs, fun budget rest' hbudget hagree => ?_⟩
  exact bind_eq_ok.mpr ⟨_, hused hbudget hagree, bind_eq_ok.mpr ⟨_, numberOfParts_congr hm, rfl⟩⟩

/-! ## Containers -/

theorem isLocal_colon : colon.IsLocal fun _ => colon := by
  intro cs x rest h
  unfold colon at h
  split at h
  · cases h
  · rename_i hskip
    cases h
    obtain ⟨blanks, rfl, hblanks⟩ := exists_of_skipBlanks hskip
    refine ⟨blanks ++ [':'], by simp, fun _ rest' _ _ => ?_⟩
    rw [List.append_assoc]
    simp only [List.singleton_append, colon, hblanks]
  · cases h

section Containers

variable {item : Reader α} {item' : Nat → Reader α}

/-- An element and those behind it, as one part, with the blanks before it. -/
theorem IsLocal.exists_elements {more : Reader (List α)} {more' : Nat → Reader (List α)}
    (h : item.IsLocal item') (hmore : more.IsLocal more') (hnil : ∀ budget p, more' budget [] ≠ .ok p)
    {cs behind rest : List Char} {x : α} {xs : List α} (hstart : StartsValue (skipBlanks cs))
    (hx : item (skipBlanks cs) = .ok (x, behind)) (hxs : more behind = .ok (xs, rest)) :
    ∃ used, cs = used ++ rest ∧ ∀ ⦃rest' : List Char⦄, Agree rest rest' →
      StartsValue (skipBlanks (used ++ rest')) ∧ ∃ behind',
        (∀ ⦃budget⦄, used.length < budget → item' budget (skipBlanks (used ++ rest')) = .ok (x, behind')) ∧
        ∀ ⦃budget⦄, used.length < budget → more' budget behind' = .ok (xs, rest') := by
  obtain ⟨d, tail, htail, hblank, hclose⟩ := hstart
  obtain ⟨blanks, rfl, hblanks⟩ := exists_of_skipBlanks htail
  rw [htail] at hx
  obtain ⟨used, hused, hitem⟩ := h hx
  obtain ⟨c, last, rfl, hlast⟩ := hmore.exists_cons hnil hxs
  -- the part starts with the first character of the element, if only because something follows
  obtain ⟨part, hpart⟩ : ∃ part, used ++ c :: last = d :: part := by
    cases used with
    | nil => cases hused; exact ⟨_, rfl⟩
    | cons e used => cases hused; exact ⟨_, rfl⟩
  have hlength : part.length + 1 = used.length + (last.length + 1) := by
    have := congrArg List.length hpart
    simpa using this.symm
  refine ⟨blanks ++ d :: part, ?_, fun rest' hagree => ?_⟩
  · rw [hused, ← hpart]
    simp
  have hskip : skipBlanks ((blanks ++ d :: part) ++ rest') = used ++ (c :: last ++ rest') := by
    rw [List.append_assoc, List.cons_append, hblanks, ← List.cons_append, ← hpart, List.append_assoc]
  refine ⟨?_, c :: last ++ rest', fun budget hbudget => ?_, fun budget hbudget => ?_⟩
  · rw [hskip, ← List.append_assoc, hpart]
    exact ⟨d, _, rfl, hblank, hclose⟩
  · rw [List.length_append, List.length_cons] at hbudget
    rw [hskip]
    exact hitem (by omega) (agree_cons _ _ _)
  · rw [List.length_append, List.length_cons] at hbudget
    exact hlast (by simp only [List.length_cons]; omega) hagree

theorem moreElements_nil (budget : Nat) (p : List α × List Char) : moreElements item budget [] ≠ .ok p := by
  cases budget <;> nofun

/-- The elements behind another one are local, with whatever budget their reader has more. -/
theorem isLocal_moreElements (h : item.IsLocal item') (n k : Nat) :
    (moreElements item n).IsLocal fun budget => moreElements (item' (budget + k)) budget := by
  induction n generalizing k with
  | zero => intro cs xs rest hr; cases hr
  | succ n ih =>
    intro cs xs rest hr
    rcases moreElements_cases hr with ⟨hskip, rfl⟩ | ⟨behind, x, next, ys, hskip, hstart, hx, hys, rfl⟩
    · obtain ⟨blanks, rfl, hblanks⟩ := exists_of_skipBlanks hskip
      refine ⟨blanks ++ [']'], by simp, fun budget rest' hbudget _ => ?_⟩
      obtain ⟨budget, rfl⟩ := Nat.exists_eq_add_one.mpr (Nat.zero_lt_of_lt hbudget)
      rw [List.append_assoc]
      exact moreElements_close (hblanks rest')
    · obtain ⟨blanks, rfl, hblanks⟩ := exists_of_skipBlanks hskip
      obtain ⟨used, rfl, hused⟩ := (h.shift (k + 1)).exists_elements (ih (k + 1))
        (fun budget p => moreElements_nil budget p) hstart hx hys
      refine ⟨blanks ++ ',' :: used, by simp, fun budget rest' hbudget hagree => ?_⟩
      obtain ⟨budget, rfl⟩ := Nat.exists_eq_add_one.mpr (Nat.zero_lt_of_lt hbudget)
      simp only [List.length_append, List.length_cons] at hbudget
      obtain ⟨hstart', behind', hx', hys'⟩ := hused hagree
      have hmore : budget + 1 + k = budget + (k + 1) := by omega
      show moreElements (item' (budget + 1 + k)) (budget + 1) _ = _
      rw [hmore, List.append_assoc, List.cons_append]
      exact moreElements_comma (hblanks _) hstart' (hx' (by omega)) (hys' (by omega))

theorem isLocal_elements (h : item.IsLocal item') (n : Nat) :
    (elements item n).IsLocal fun budget => elements (item' budget) budget := by
  intro cs xs rest hr
  rcases elements_cases hr with ⟨hskip, rfl⟩ | ⟨x, next, ys, hstart, hx, hys, rfl⟩
  · obtain ⟨blanks, rfl, hblanks⟩ := exists_of_skipBlanks hskip
    refine ⟨blanks ++ [']'], by simp, fun budget rest' _ _ => ?_⟩
    rw [List.append_assoc]
    simp only [List.singleton_append, elements, hblanks]
  · obtain ⟨used, rfl, hused⟩ := h.exists_elements (isLocal_moreElements h n 0)
      (fun budget p => moreElements_nil budget p) hstart hx hys
    refine ⟨used, rfl, fun budget rest' hbudget hagree => ?_⟩
    obtain ⟨hstart', behind', hx', hys'⟩ := hused hagree
    exact elements_cons hstart' (hx' hbudget) (hys' hbudget)

theorem isLocal_member (h : item.IsLocal item') (n : Nat) :
    (member item n).IsLocal fun budget => member (item' budget) budget :=
  (isLocal_stringLiteral n).bind fun key => isLocal_colon.bind fun _ => h.map fun v => (key, v)

/-- The members behind another one are local, with whatever budget their reader has more. -/
theorem isLocal_moreMembers (h : item.IsLocal item') (n k : Nat) :
    (moreMembers item n).IsLocal fun budget => moreMembers (item' (budget + k)) budget := by
  induction n generalizing k with
  | zero => intro cs ms rest hr; cases hr
  | succ n ih =>
    intro cs ms rest hr
    rcases moreMembers_cases hr with ⟨hskip, rfl⟩ |
      ⟨behind, quoted, m, next, ns, hskip, hquote, hm, hns, rfl⟩
    · obtain ⟨blanks, rfl, hblanks⟩ := exists_of_skipBlanks hskip
      refine ⟨blanks ++ ['\x7d'], by simp, fun budget rest' hbudget _ => ?_⟩
      obtain ⟨budget, rfl⟩ := Nat.exists_eq_add_one.mpr (Nat.zero_lt_of_lt hbudget)
      rw [List.append_assoc]
      exact moreMembers_close (hblanks rest')
    · obtain ⟨used, rfl, hused⟩ := isLocal_member (h.shift k) (n + 1) hm
      obtain ⟨more, rfl, hmore⟩ := ih (k + 1) hns
      obtain ⟨before, rfl, hblanks⟩ := exists_of_skipBlanks hskip
      obtain ⟨between, rfl, hblanks'⟩ := exists_of_skipBlanks hquote
      refine ⟨before ++ ',' :: (between ++ '"' :: (used ++ more)), by simp,
        fun budget rest' hbudget hagree => ?_⟩
      obtain ⟨budget, rfl⟩ := Nat.exists_eq_add_one.mpr (Nat.zero_lt_of_lt hbudget)
      simp only [List.length_append, List.length_cons] at hbudget
      have hread : member (item' (budget + 1 + k)) (budget + 1) (used ++ (more ++ rest')) =
          .ok (m, more ++ rest') := hused (by omega) (hagree.append more)
      have hread' : moreMembers (item' (budget + (k + 1))) budget (more ++ rest') = .ok (ns, rest') :=
        hmore (by omega) hagree
      have hsum : budget + 1 + k = budget + (k + 1) := by omega
      rw [← hsum] at hread'
      show moreMembers (item' (budget + 1 + k)) (budget + 1) _ = _
      simp only [List.append_assoc, List.cons_append]
      exact moreMembers_comma (hblanks _) (hblanks' _) hread hread'

theorem isLocal_members (h : item.IsLocal item') (n : Nat) :
    (members item n).IsLocal fun budget => members (item' budget) budget := by
  intro cs ms rest hr
  rcases members_cases hr with ⟨hskip, rfl⟩ | ⟨quoted, m, next, ns, hquote, hm, hns, rfl⟩
  · obtain ⟨blanks, rfl, hblanks⟩ := exists_of_skipBlanks hskip
    refine ⟨blanks ++ ['\x7d'], by simp, fun budget rest' _ _ => ?_⟩
    rw [List.append_assoc]
    simp only [List.singleton_append, members, hblanks]
  · obtain ⟨used, rfl, hused⟩ := isLocal_member h n hm
    obtain ⟨more, rfl, hmore⟩ := isLocal_moreMembers h n 0 hns
    obtain ⟨blanks, rfl, hblanks⟩ := exists_of_skipBlanks hquote
    refine ⟨blanks ++ '"' :: (used ++ more), by simp, fun budget rest' hbudget hagree => ?_⟩
    simp only [List.length_append, List.length_cons] at hbudget
    have hread : member (item' budget) budget (used ++ (more ++ rest')) = .ok (m, more ++ rest') :=
      hused (by omega) (hagree.append more)
    have hread' : moreMembers (item' budget) budget (more ++ rest') = .ok (ns, rest') :=
      hmore (by omega) hagree
    simp only [List.append_assoc, List.cons_append]
    exact members_cons (hblanks _) hread hread'

end Containers

/-! ## Values -/

theorem number_nil (negative : Bool) (p : Number × List Char) : number negative [] ≠ .ok p := nofun

/-- A value is local if those that stand in it are. -/
theorem isLocal_valueWith (nested : Option (Reader Json)) (nested' : Nat → Option (Reader Json))
    (h : ∀ item, nested = some item →
      ∃ item', item.IsLocal item' ∧ ∀ budget, nested' budget = some (item' budget)) (n : Nat) :
    (valueWith n nested).IsLocal fun budget => valueWith budget (nested' budget) := by
  refine IsLocal.afterBlanks (IsLocal.head (fun c => ?_) (.atEnd .eofValue)) nofun
  refine ((isLocal_keyword _).map fun _ => Json.null).ite ?_
  refine ((isLocal_keyword _).map fun _ => Json.bool true).ite ?_
  refine ((isLocal_keyword _).map fun _ => Json.bool false).ite ?_
  refine ((isLocal_stringLiteral n).map Json.string).ite ?_
  refine ((isLocal_number true).map Json.number).ite ?_
  refine (((isLocal_number false).cons (fun _ => number_nil false) c).map Json.number).ite ?_
  cases nested with
  | none => exact (isLocal_error _ _).ite ((isLocal_error _ _).ite (isLocal_error _ _))
  | some item =>
    obtain ⟨item', hitem, hnested⟩ := h item rfl
    obtain rfl : nested' = fun budget => some (item' budget) := funext hnested
    refine ((isLocal_elements hitem n).map Json.array).ite ?_
    exact ((isLocal_members hitem n).map fun ms => Json.object (fieldsOfMembers ms)).ite (isLocal_error _ _)

/-- **Values are read alike by every reader that goes as deep**, from the same part of a text. -/
theorem isLocal_value {depth depth' : Nat} (hdepth : depth ≤ depth') (n : Nat) :
    (value n depth).IsLocal fun budget => value budget depth' := by
  induction depth generalizing depth' with
  | zero =>
    cases depth' with
    | zero => exact isLocal_valueWith none (fun _ => none) nofun n
    | succ depth' => exact isLocal_valueWith none (fun budget => some (value budget depth')) nofun n
  | succ depth ih =>
    obtain ⟨depth', rfl⟩ : ∃ d, depth' = d + 1 := ⟨depth' - 1, by omega⟩
    refine isLocal_valueWith (some (value n depth)) (fun budget => some (value budget depth'))
      (fun item hitem => ?_) n
    cases hitem
    exact ⟨fun budget => value budget depth', ih (by omega), fun _ => rfl⟩

end Reader

end ContractBindings.Json
