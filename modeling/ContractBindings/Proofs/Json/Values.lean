import ContractBindings.Proofs.Json.Scalars

/-!
# Values read back

A value that was written is read as itself, with whatever blanks it was written.  There are three
conditions: the reader goes deep enough for it (`Fits`), its keys are distinct and its integers within 64
bits (`IsRegular`), and it holds no binary64 number, because those are rounded twice.

* `Everywhere`: what holds of every value inside a value;
* `elements_chars`, `members_chars`: containers are read back if what they hold is;
* `value_chars`: by induction on the depth every value is, before anything that does not go on with a
  number;
* `run_pretty`, `parse_pretty`: and so is a whole text.
-/

set_option autoImplicit false

namespace ContractBindings.Json

open Reader

/-! ## Values inside values -/

/-- A value stands in another one: it is that one, or stands in one of its elements or members. -/
inductive Within (u : Json) : Json → Prop where
  | self : Within u u
  | element {x : Json} {xs : List Json} : x ∈ xs → Within u x → Within u (.array xs)
  | member {m : String × Json} {ms : List (String × Json)} :
    m ∈ ms → Within u m.2 → Within u (.object ms)

/-- Every value inside a value has a property. -/
def Everywhere (P : Json → Prop) (v : Json) : Prop := ∀ u, Within u v → P u

section Everywhere

variable {P Q : Json → Prop}

theorem Everywhere.self {v : Json} (h : Everywhere P v) : P v := h v .self

theorem everywhere_array_iff {xs : List Json} :
    Everywhere P (.array xs) ↔ P (.array xs) ∧ ∀ x ∈ xs, Everywhere P x := by
  constructor
  · exact fun h => ⟨h.self, fun x hx u hu => h u (.element hx hu)⟩
  · rintro ⟨hself, hall⟩ u hu
    cases hu with
    | self => exact hself
    | element hx hu => exact hall _ hx u hu

theorem everywhere_object_iff {ms : List (String × Json)} :
    Everywhere P (.object ms) ↔ P (.object ms) ∧ ∀ m ∈ ms, Everywhere P m.2 := by
  constructor
  · exact fun h => ⟨h.self, fun m hm u hu => h u (.member hm hu)⟩
  · rintro ⟨hself, hall⟩ u hu
    cases hu with
    | self => exact hself
    | member hm hu => exact hall _ hm u hu

/-- Nothing else stands in a scalar. -/
theorem everywhere_scalar {v : Json} (harray : ∀ xs, v ≠ .array xs) (hobject : ∀ ms, v ≠ .object ms)
    (h : P v) : Everywhere P v := by
  intro u hu
  cases hu with
  | self => exact h
  | element => exact absurd rfl (harray _)
  | member => exact absurd rfl (hobject _)

end Everywhere

/-- Containers nest at most this deep in a value. -/
def Fits : Nat → Json → Prop
  | 0, .array _ => False
  | 0, .object _ => False
  | depth + 1, .array xs => ∀ x ∈ xs, Fits depth x
  | depth + 1, .object ms => ∀ m ∈ ms, Fits depth m.2
  | _, _ => True

/-- Every value nests no deeper than it is large. -/
theorem fits_of_sizeOf_le {depth : Nat} {v : Json} (h : sizeOf v ≤ depth) : Fits depth v := by
  induction depth generalizing v with
  | zero => cases v <;> simp at h
  | succ depth ih =>
    cases v with
    | array xs =>
      intro x hx
      have hlt := List.sizeOf_lt_of_mem hx
      rw [array.sizeOf_spec] at h
      exact ih (by omega)
    | object ms =>
      intro m hm
      have hlt := List.sizeOf_lt_of_mem hm
      have hvalue : sizeOf m.2 ≤ sizeOf m := by
        obtain ⟨key, x⟩ := m
        simp
      rw [object.sizeOf_spec] at h
      exact ih (by omega)
    | _ => trivial

/-- No key is repeated, and integers have at most 64 bits. -/
def IsRegular : Json → Prop
  | .object ms => (ms.map Prod.fst).Nodup
  | .number (.integer n) => IsWithin n
  | _ => True

/-- A binary64 number. -/
def IsReal : Json → Prop
  | .number (.real _) => True
  | _ => False

/-! ## Fields -/

theorem set_of_not_mem {key : String} {fields : Fields} (h : key ∉ fields.map Prod.fst) (v : Json) :
    fields.set key v = fields ++ [(key, v)] := by
  induction fields with
  | nil => rfl
  | cons m fields ih =>
    obtain ⟨k, old⟩ := m
    rw [List.map_cons, List.mem_cons, not_or] at h
    rw [Fields.set, if_neg (Ne.symm h.1), ih h.2]
    rfl

theorem fieldsOfMembers_append (ms : List (String × Json)) (m : String × Json) :
    fieldsOfMembers (ms ++ [m]) = (fieldsOfMembers ms).set m.1 m.2 := by
  simp [fieldsOfMembers]

/-- Members with distinct keys are the fields. -/
theorem fieldsOfMembers_of_nodup {ms : List (String × Json)} (h : (ms.map Prod.fst).Nodup) :
    fieldsOfMembers ms = ms := by
  induction ms using List.reverseRecOn with
  | nil => rfl
  | append_singleton ms m ih =>
    rw [List.map_append, List.nodup_append] at h
    obtain ⟨hms, _, hfresh⟩ := h
    have hnot : m.1 ∉ ms.map Prod.fst := fun hm => hfresh m.1 hm m.1 (by simp) rfl
    rw [fieldsOfMembers_append, ih hms, set_of_not_mem hnot]

/-! ## What is written -/

variable {sp : Spacing}

/-- A spacing that a reader passes over. -/
def Spacing.IsBlank : Spacing → Prop
  | compact => True
  | lines indent _ => ∀ c ∈ indent, isBlank c = true

theorem Spacing.isBlank_compact : Spacing.compact.IsBlank := trivial

theorem Spacing.IsBlank.inner (h : sp.IsBlank) : sp.inner.IsBlank := by
  cases sp <;> exact h

theorem toList_natural (n : Nat) : (toString (n : Int)).toList = Nat.toDigits 10 n := by
  show (Nat.repr n).toList = _
  rw [Nat.repr, String.toList_ofList]

theorem toList_negative (n : Nat) :
    (toString (Int.negSucc n)).toList = '-' :: Nat.toDigits 10 (n + 1) := by
  have hdigits := toList_natural (n + 1)
  show ("-" ++ Nat.repr (n + 1)).toList = _
  rw [String.toList_append]
  exact congrArg ('-' :: ·) hdigits

/-- The first character of a value tells that no container ends here. -/
def StartsValue (cs : List Char) : Prop :=
  ∃ c rest, cs = c :: rest ∧ isBlank c = false ∧ c ≠ ']'

theorem startsValue_digits (n : Nat) : StartsValue (Nat.toDigits 10 n) := by
  obtain ⟨c, cs, hcs⟩ := List.exists_cons_of_ne_nil (Nat.toDigits_ne_nil (n := n) (b := 10))
  have hdigit : c.isDigit = true := digits_of_mem (n := n) (by rw [hcs]; simp)
  refine ⟨c, cs, hcs, ?_, ?_⟩
  · rw [Bool.eq_false_iff]
    intro hblank
    simp only [isBlank, Bool.or_eq_true, beq_iff_eq] at hblank
    rcases hblank with ((rfl | rfl) | rfl) | rfl <;> exact absurd hdigit (by decide)
  · rintro rfl
    exact absurd hdigit (by decide)

theorem startsValue_chars (sp : Spacing) {v : Json} (h : ¬ IsReal v) : StartsValue (chars sp v) := by
  have hcons : ∀ (c : Char) (cs : List Char), isBlank c = false → c ≠ ']' → StartsValue (c :: cs) :=
    fun c cs hblank hclose => ⟨c, cs, rfl, hblank, hclose⟩
  cases v with
  | null => exact hcons _ _ rfl (by decide)
  | bool b => cases b <;> exact hcons _ _ rfl (by decide)
  | number n =>
    cases n with
    | integer n =>
      cases n with
      | ofNat n =>
        have := toList_natural n
        rw [chars, Number.chars, Int.ofNat_eq_natCast, this]
        exact startsValue_digits n
      | negSucc n =>
        rw [chars, Number.chars, toList_negative]
        exact hcons _ _ rfl (by decide)
    | real x => exact absurd trivial h
  | string s => exact hcons _ _ rfl (by decide)
  | array xs => cases xs <;> exact hcons _ _ rfl (by decide)
  | object ms => cases ms <;> exact hcons _ _ rfl (by decide)

theorem skipBlanks_of_not_blank {c : Char} (h : isBlank c = false) (cs : List Char) :
    skipBlanks (c :: cs) = c :: cs := by
  simp [skipBlanks, h]

theorem skipBlanks_lead (h : sp.IsBlank) (cs : List Char) : skipBlanks (sp.lead ++ cs) = skipBlanks cs := by
  cases sp with
  | compact => rfl
  | lines indent depth =>
    have hall : ∀ c ∈ (Spacing.lines indent depth).lead, isBlank c = true := by
      intro c hc
      rcases List.mem_cons.mp hc with rfl | hc
      · rfl
      · obtain ⟨_, hblock, hc⟩ := List.mem_flatten.mp hc
        exact h c ((List.mem_replicate.mp hblock).2 ▸ hc)
    exact List.dropWhile_append_of_pos hall

/-- The rest behind a value in a container does not go on with a number. -/
theorem endsNumber_cons {c : Char} (h : c.isDigit = false ∧ c ≠ '.' ∧ c ≠ 'e' ∧ c ≠ 'E')
    (cs : List Char) : EndsNumber (c :: cs) := by
  intro d hd
  cases hd
  exact h

theorem endsNumber_lead (sp : Spacing) {cs : List Char} (h : EndsNumber cs) : EndsNumber (sp.lead ++ cs) := by
  cases sp with
  | compact => exact h
  | lines => exact endsNumber_cons (c := '\n') (by decide) _

theorem endsNumber_elementChars (sp : Spacing) (xs : List Json) (rest : List Char) :
    EndsNumber (elementChars sp xs ++ rest) := by
  cases xs with
  | nil =>
    rw [elementChars, List.append_assoc]
    exact endsNumber_lead sp (endsNumber_cons (c := ']') (by decide) _)
  | cons x xs => exact endsNumber_cons (c := ',') (by decide) _

theorem endsNumber_memberChars (sp : Spacing) (ms : List (String × Json)) (rest : List Char) :
    EndsNumber (memberChars sp ms ++ rest) := by
  cases ms with
  | nil =>
    rw [memberChars, List.append_assoc]
    exact endsNumber_lead sp (endsNumber_cons (c := '\x7d') (by decide) _)
  | cons m ms => exact endsNumber_cons (c := ',') (by decide) _

theorem length_lt_elementChars (sp : Spacing) {x : Json} {xs : List Json} (h : x ∈ xs) :
    (chars sp.inner x).length < (elementChars sp xs).length := by
  induction xs with
  | nil => cases h
  | cons y xs ih =>
    simp only [elementChars, List.length_append, List.length_cons]
    rcases List.mem_cons.mp h with rfl | h
    · omega
    · have := ih h
      omega

theorem length_lt_memberChars (sp : Spacing) {m : String × Json} {ms : List (String × Json)} (h : m ∈ ms) :
    (chars sp.inner m.2).length < (memberChars sp ms).length := by
  induction ms with
  | nil => cases h
  | cons y ms ih =>
    obtain ⟨k, v⟩ := y
    simp only [memberChars, List.length_append, List.length_cons]
    rcases List.mem_cons.mp h with rfl | h
    · show (chars sp.inner v).length < _
      omega
    · have := ih h
      omega

theorem length_lt_array (sp : Spacing) {x : Json} {xs : List Json} (h : x ∈ xs) :
    (chars sp.inner x).length < (chars sp (.array xs)).length := by
  have hlt := length_lt_elementChars sp h
  cases xs with
  | nil => cases h
  | cons y xs => simpa only [chars, elementChars, List.length_append, List.length_cons] using hlt

theorem length_lt_object (sp : Spacing) {m : String × Json} {ms : List (String × Json)} (h : m ∈ ms) :
    (chars sp.inner m.2).length < (chars sp (.object ms)).length := by
  have hlt := length_lt_memberChars sp h
  cases ms with
  | nil => cases h
  | cons y ms => simpa only [chars, memberChars, List.length_append, List.length_cons] using hlt

/-! ## Containers -/

section Steps

variable {α : Type} {item : Reader α} {budget : Nat} {cs rest : List Char}

theorem moreElements_close (h : skipBlanks cs = ']' :: rest) :
    moreElements item (budget + 1) cs = .ok ([], rest) := by
  simp only [moreElements, h]

theorem moreElements_comma {behind : List Char} (hcomma : skipBlanks cs = ',' :: behind)
    (h : StartsValue (skipBlanks behind)) {x : α} {xs : List α} {next : List Char}
    (hx : item (skipBlanks behind) = .ok (x, next)) (hxs : moreElements item budget next = .ok (xs, rest)) :
    moreElements item (budget + 1) cs = .ok (x :: xs, rest) := by
  obtain ⟨c, more, hcs, _, hclose⟩ := h
  rw [moreElements, hcomma]
  simp only
  split
  · rename_i hnil; rw [hcs] at hnil; cases hnil
  · rename_i hend; rw [hcs] at hend; cases hend; exact absurd rfl hclose
  · simp only [hx, hxs, bind, Except.bind]

theorem elements_cons (h : StartsValue (skipBlanks cs)) {x : α} {xs : List α} {next : List Char}
    (hx : item (skipBlanks cs) = .ok (x, next)) (hxs : moreElements item budget next = .ok (xs, rest)) :
    elements item budget cs = .ok (x :: xs, rest) := by
  obtain ⟨c, more, hcs, _, hclose⟩ := h
  unfold elements
  split
  · rename_i hnil; rw [hcs] at hnil; cases hnil
  · rename_i hend; rw [hcs] at hend; cases hend; exact absurd rfl hclose
  · simp only [hx, hxs, bind, Except.bind]

theorem moreMembers_close (h : skipBlanks cs = '\x7d' :: rest) :
    moreMembers item (budget + 1) cs = .ok ([], rest) := by
  simp only [moreMembers, h]

theorem moreMembers_comma {behind key next : List Char} (hcomma : skipBlanks cs = ',' :: behind)
    (h : skipBlanks behind = '"' :: key) {m : String × α} {ms : List (String × α)}
    (hm : member item (budget + 1) key = .ok (m, next))
    (hms : moreMembers item budget next = .ok (ms, rest)) :
    moreMembers item (budget + 1) cs = .ok (m :: ms, rest) := by
  rw [moreMembers, hcomma]
  simp only [h, hm, hms, bind, Except.bind]

theorem members_cons {key next : List Char} (h : skipBlanks cs = '"' :: key)
    {m : String × α} {ms : List (String × α)} (hm : member item budget key = .ok (m, next))
    (hms : moreMembers item budget next = .ok (ms, rest)) :
    members item budget cs = .ok (m :: ms, rest) := by
  unfold members
  simp only [h, hm, hms, bind, Except.bind]

/-- A key as it is written, a colon, and what is read as a value. -/
theorem member_stringText {k : String} (hk : (stringText k).length < budget) {v : α}
    (hv : item cs = .ok (v, rest)) :
    member item budget (k.toList.flatMap escapeChar ++ '"' :: ':' :: cs) = .ok ((k, v), rest) := by
  have hcolon : colon (':' :: cs) = .ok ((), cs) := rfl
  unfold member
  simp only [stringLiteral_stringText hk, hcolon, hv, bind, Except.bind]

end Steps

section Containers

variable {item : Reader Json} (hsp : sp.IsBlank)
include hsp

theorem skipBlanks_value {v : Json} (h : ¬ IsReal v) (rest : List Char) :
    skipBlanks (sp.inner.lead ++ (chars sp.inner v ++ rest)) = chars sp.inner v ++ rest ∧
      StartsValue (chars sp.inner v ++ rest) := by
  obtain ⟨c, cs, hcs, hblank, hclose⟩ := startsValue_chars sp.inner h
  rw [skipBlanks_lead hsp.inner, hcs, List.cons_append, skipBlanks_of_not_blank hblank]
  exact ⟨rfl, c, _, rfl, hblank, hclose⟩

/-- Elements are read back, if a reader reads each of them back. -/
theorem moreElements_elementChars {xs : List Json} (hreal : ∀ x ∈ xs, ¬ IsReal x)
    (hitem : ∀ x ∈ xs, ∀ rest, EndsNumber rest → item (chars sp.inner x ++ rest) = .ok (x, rest))
    {budget : Nat} (hbudget : (elementChars sp xs).length < budget) (rest : List Char) :
    moreElements item budget (elementChars sp xs ++ rest) = .ok (xs, rest) := by
  obtain ⟨budget, rfl⟩ : ∃ k, budget = k + 1 := ⟨budget - 1, by omega⟩
  induction xs generalizing budget with
  | nil =>
    apply moreElements_close
    rw [elementChars, List.append_assoc, skipBlanks_lead hsp]
    rfl
  | cons x xs ih =>
    simp only [elementChars, List.length_append, List.length_cons] at hbudget
    obtain ⟨budget, rfl⟩ : ∃ k, budget = k + 1 := ⟨budget - 1, by omega⟩
    have hxs := ih (fun y hy => hreal y (List.mem_cons_of_mem _ hy))
      (fun y hy => hitem y (List.mem_cons_of_mem _ hy)) budget (by omega)
    obtain ⟨hskip, hstart⟩ := skipBlanks_value hsp (hreal x (by simp)) (elementChars sp xs ++ rest)
    have hx := hitem x (by simp) _ (endsNumber_elementChars sp xs rest)
    simp only [elementChars, List.cons_append, List.append_assoc]
    rw [← hskip] at hx hstart
    exact moreElements_comma (skipBlanks_of_not_blank rfl _) hstart hx hxs

/-- So are all elements of an array, behind its bracket. -/
theorem elements_chars {xs : List Json} (hreal : ∀ x ∈ xs, ¬ IsReal x)
    (hitem : ∀ x ∈ xs, ∀ rest, EndsNumber rest → item (chars sp.inner x ++ rest) = .ok (x, rest))
    {budget : Nat} (hbudget : (chars sp (.array xs)).length ≤ budget) (rest : List Char) :
    elements item budget ((chars sp (.array xs)).tail ++ rest) = .ok (xs, rest) := by
  cases xs with
  | nil => rfl
  | cons x xs =>
    simp only [chars, List.length_append, List.length_cons] at hbudget
    have hlength : (elementChars sp xs).length < budget := by omega
    have hxs := moreElements_elementChars hsp (fun y hy => hreal y (List.mem_cons_of_mem _ hy))
      (fun y hy => hitem y (List.mem_cons_of_mem _ hy)) hlength rest
    obtain ⟨hskip, hstart⟩ := skipBlanks_value hsp (hreal x (by simp)) (elementChars sp xs ++ rest)
    have hx := hitem x (by simp) _ (endsNumber_elementChars sp xs rest)
    simp only [chars, List.cons_append, List.tail_cons, List.append_assoc]
    rw [← hskip] at hx hstart
    exact elements_cons hstart hx hxs

theorem skipBlanks_key (k : String) (rest : List Char) :
    skipBlanks (sp.inner.lead ++ (stringText k ++ rest)) =
      '"' :: (k.toList.flatMap escapeChar ++ '"' :: rest) := by
  rw [skipBlanks_lead hsp.inner, stringText, List.cons_append, List.cons_append, List.append_assoc,
    List.singleton_append]
  exact skipBlanks_of_not_blank rfl _

/-- Members are read back, if a reader reads each of their values back. -/
theorem moreMembers_memberChars {ms : List (String × Json)}
    (hitem : ∀ m ∈ ms, ∀ rest, EndsNumber rest →
      item (sp.gap ++ (chars sp.inner m.2 ++ rest)) = .ok (m.2, rest))
    {budget : Nat} (hbudget : (memberChars sp ms).length < budget) (rest : List Char) :
    moreMembers item budget (memberChars sp ms ++ rest) = .ok (ms, rest) := by
  obtain ⟨budget, rfl⟩ : ∃ k, budget = k + 1 := ⟨budget - 1, by omega⟩
  induction ms generalizing budget with
  | nil =>
    apply moreMembers_close
    rw [memberChars, List.append_assoc, skipBlanks_lead hsp]
    rfl
  | cons m ms ih =>
    obtain ⟨k, v⟩ := m
    simp only [memberChars, List.length_append, List.length_cons] at hbudget
    obtain ⟨budget, rfl⟩ : ∃ k, budget = k + 1 := ⟨budget - 1, by omega⟩
    have hms := ih (fun y hy => hitem y (List.mem_cons_of_mem _ hy)) budget (by omega)
    have hv := hitem (k, v) (by simp) _ (endsNumber_memberChars sp ms rest)
    have hkey : (stringText k).length < budget + 1 + 1 := by omega
    have hm := member_stringText hkey hv
    simp only [memberChars, List.cons_append, List.append_assoc]
    exact moreMembers_comma (skipBlanks_of_not_blank rfl _) (skipBlanks_key hsp k _) hm hms

/-- So are all members of an object, behind its brace. -/
theorem members_chars {ms : List (String × Json)}
    (hitem : ∀ m ∈ ms, ∀ rest, EndsNumber rest →
      item (sp.gap ++ (chars sp.inner m.2 ++ rest)) = .ok (m.2, rest))
    {budget : Nat} (hbudget : (chars sp (.object ms)).length ≤ budget) (rest : List Char) :
    members item budget ((chars sp (.object ms)).tail ++ rest) = .ok (ms, rest) := by
  cases ms with
  | nil => rfl
  | cons m ms =>
    obtain ⟨k, v⟩ := m
    simp only [chars, List.length_append, List.length_cons] at hbudget
    have hlength : (memberChars sp ms).length < budget := by omega
    have hms := moreMembers_memberChars hsp (fun y hy => hitem y (List.mem_cons_of_mem _ hy)) hlength rest
    have hv := hitem (k, v) (by simp) _ (endsNumber_memberChars sp ms rest)
    have hkey : (stringText k).length < budget := by omega
    simp only [chars, List.cons_append, List.tail_cons, List.append_assoc]
    exact members_cons (skipBlanks_key hsp k _) (member_stringText hkey hv) hms

end Containers

/-! ## Values -/

/-- What is needed to read a value back. -/
structure IsExact (depth : Nat) (v : Json) : Prop where
  fits : v.Fits depth
  regular : v.Everywhere IsRegular
  notReal : v.Everywhere fun u => ¬ IsReal u

namespace IsExact

theorem element {depth : Nat} {xs : List Json} (h : IsExact (depth + 1) (.array xs)) {x : Json}
    (hx : x ∈ xs) : IsExact depth x :=
  ⟨h.fits x hx, (everywhere_array_iff.mp h.regular).2 x hx, (everywhere_array_iff.mp h.notReal).2 x hx⟩

theorem member {depth : Nat} {ms : List (String × Json)} (h : IsExact (depth + 1) (.object ms))
    {m : String × Json} (hm : m ∈ ms) : IsExact depth m.2 :=
  ⟨h.fits m hm, (everywhere_object_iff.mp h.regular).2 m hm,
    (everywhere_object_iff.mp h.notReal).2 m hm⟩

end IsExact

theorem value_gap (sp : Spacing) (budget depth : Nat) (cs : List Char) :
    value budget depth (sp.gap ++ cs) = value budget depth cs := by
  cases sp with
  | compact => rfl
  | lines => cases depth <;> rfl

theorem ne_of_isDigit {c d : Char} (h : c.isDigit = true) (hd : d.isDigit = false) : c ≠ d := by
  rintro rfl
  rw [h] at hd
  cases hd

/-- An integer is read back at any depth. -/
theorem valueWith_integer {n : Int} (h : IsWithin n) (budget : Nat) (nested : Option (Reader Json))
    {rest : List Char} (hrest : EndsNumber rest) :
    valueWith budget nested ((toString n).toList ++ rest) = .ok (.number (.integer n), rest) := by
  obtain ⟨hlow, hhigh⟩ := h
  cases n with
  | ofNat n =>
    rw [Int.ofNat_eq_natCast] at hlow hhigh ⊢
    have htext := toList_natural n
    have hread := number_natural (n := n) (by unfold wordLimit; omega) hrest
    obtain ⟨c, cs, hcs⟩ := List.exists_cons_of_ne_nil (Nat.toDigits_ne_nil (n := n) (b := 10))
    have hdigit : c.isDigit = true := digits_of_mem (n := n) (by rw [hcs]; simp)
    obtain ⟨_, _, hcons, hblank, _⟩ := startsValue_digits n
    rw [hcs] at hread hcons
    cases hcons
    rw [htext, hcs, List.cons_append]
    have hne : ∀ d : Char, d.isDigit = false → c ≠ d := fun d => ne_of_isDigit hdigit
    rw [valueWith, skipBlanks_of_not_blank hblank]
    simp only [hne 'n' rfl, hne 't' rfl, hne 'f' rfl, hne '"' rfl, hne '-' rfl, hdigit, if_false,
      if_true]
    rw [← List.cons_append, hread]
    rfl
  | negSucc n =>
    have hread := number_negative (n := n + 1) (by omega) (by omega) hrest
    rw [toList_negative, List.cons_append, valueWith, skipBlanks_of_not_blank rfl]
    simp only [Char.reduceEq, if_false, if_true, hread, bind, Except.bind]
    rfl

theorem valueWith_string {s : String} {budget : Nat} (h : (stringText s).length < budget)
    (nested : Option (Reader Json)) (rest : List Char) :
    valueWith budget nested (stringText s ++ rest) = .ok (.string s, rest) := by
  have hquote : stringText s ++ rest = '"' :: (s.toList.flatMap escapeChar ++ '"' :: rest) := by
    simp [stringText]
  rw [hquote, valueWith, skipBlanks_of_not_blank rfl]
  simp only [Char.reduceEq, if_false, if_true, stringLiteral_stringText h, bind, Except.bind]

/-- Scalars are read back at any depth. -/
theorem valueWith_scalar {v : Json} {depth budget : Nat} (h : IsExact depth v)
    (harray : ∀ xs, v ≠ .array xs) (hobject : ∀ ms, v ≠ .object ms)
    (hbudget : (chars sp v).length < budget) (nested : Option (Reader Json)) {rest : List Char}
    (hrest : EndsNumber rest) :
    valueWith budget nested (chars sp v ++ rest) = .ok (v, rest) := by
  cases v with
  | null => rfl
  | bool b => cases b <;> rfl
  | number n =>
    cases n with
    | integer n => exact valueWith_integer h.regular.self budget nested hrest
    | real x => exact absurd trivial h.notReal.self
  | string s => exact valueWith_string hbudget nested rest
  | array xs => exact absurd rfl (harray xs)
  | object ms => exact absurd rfl (hobject ms)

theorem valueWith_array {budget : Nat} {item : Reader Json} {cs rest : List Char} {xs : List Json}
    (h : elements item budget cs = .ok (xs, rest)) :
    valueWith budget (some item) ('[' :: cs) = .ok (.array xs, rest) := by
  rw [valueWith, skipBlanks_of_not_blank rfl]
  simp only [Char.reduceEq, if_false, if_true, h, bind, Except.bind]
  rfl

theorem valueWith_object {budget : Nat} {item : Reader Json} {cs rest : List Char}
    {ms : List (String × Json)} (h : members item budget cs = .ok (ms, rest))
    (hms : (ms.map Prod.fst).Nodup) :
    valueWith budget (some item) ('\x7b' :: cs) = .ok (.object ms, rest) := by
  rw [valueWith, skipBlanks_of_not_blank rfl]
  simp only [Char.reduceEq, if_false, if_true, h, fieldsOfMembers_of_nodup hms, bind, Except.bind]
  rfl

/-- **A value that fits is read back**, whatever follows that does not go on with a number. -/
theorem value_chars (hsp : sp.IsBlank) {depth budget : Nat} {v : Json} (h : IsExact depth v)
    (hbudget : (chars sp v).length < budget) {rest : List Char} (hrest : EndsNumber rest) :
    value budget depth (chars sp v ++ rest) = .ok (v, rest) := by
  -- on the depth left: what stands in a container is read with one less
  induction depth generalizing sp v rest with
  | zero =>
    cases v with
    | array xs => exact absurd h.fits id
    | object ms => exact absurd h.fits id
    | _ => exact valueWith_scalar h (by simp) (by simp) hbudget none hrest
  | succ depth ih =>
    cases v with
    | array xs =>
      have hitem : ∀ x ∈ xs, ∀ rest, EndsNumber rest →
          value budget depth (chars sp.inner x ++ rest) = .ok (x, rest) := fun x hx rest hrest =>
        ih hsp.inner (h.element hx) (by have := length_lt_array sp hx; omega) hrest
      have hopen : chars sp (.array xs) = '[' :: (chars sp (.array xs)).tail := by cases xs <;> rfl
      rw [hopen]
      exact valueWith_array
        (elements_chars hsp (fun x hx => (h.element hx).notReal.self) hitem hbudget.le rest)
    | object ms =>
      have hitem : ∀ m ∈ ms, ∀ rest, EndsNumber rest →
          value budget depth (sp.gap ++ (chars sp.inner m.2 ++ rest)) = .ok (m.2, rest) := by
        intro m hm rest hrest
        rw [value_gap]
        exact ih hsp.inner (h.member hm) (by have := length_lt_object sp hm; omega) hrest
      have hopen : chars sp (.object ms) = '\x7b' :: (chars sp (.object ms)).tail := by cases ms <;> rfl
      rw [hopen]
      exact valueWith_object (members_chars hsp hitem hbudget.le rest) h.regular.self
    | _ => exact valueWith_scalar h (by simp) (by simp) hbudget _ hrest

/-- **A text that was written is read as the value that it was written for**, by a reader that goes deep
enough. -/
theorem run_pretty {indent : String} (hindent : ∀ c ∈ indent.toList, isBlank c = true) {depth : Nat}
    {v : Json} (h : IsExact depth v) :
    (value ((pretty indent v).length + 1) depth).run (pretty indent v) = .ok v := by
  have hlength : (chars (.lines indent.toList 0) v).length < (pretty indent v).length + 1 := by
    simp [pretty]
  have hend : EndsNumber [] := by simp [EndsNumber]
  have hblank : (Spacing.lines indent.toList 0).IsBlank := hindent
  have hread := value_chars hblank h hlength hend
  rw [List.append_nil] at hread
  have htext : (pretty indent v).toList = chars (.lines indent.toList 0) v := by simp [pretty]
  rw [Reader.run, htext, hread]
  rfl

theorem parse_pretty {indent : String} (hindent : ∀ c ∈ indent.toList, isBlank c = true) {v : Json}
    (h : IsExact maxDepth v) : parse (pretty indent v) = .ok v :=
  run_pretty hindent h

end ContractBindings.Json
