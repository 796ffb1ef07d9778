import ContractBindings.Proofs.Fallible
import ContractBindings.Proofs.Json.Values

/-!
# What readers read

Whatever text a reader is given, the value that it reads is regular everywhere: no key is repeated, and
integers have at most 64 bits.  Nor does it nest too deep to be read again.

* `nodup_fieldsOfMembers`, `mem_of_fieldsOfMembers`: repeated keys are joined into one field, whose value
  is that of one of the members;
* `moreElements_cases`, `elements_cases`, `moreMembers_cases`, `members_cases`: all that a reader of
  containers may have read in one step;
* `yields_elements`, `yields_members`: so what it reads comes from the reader of what they hold;
* `valueWith_cases`: and a value is a scalar, or made of what the reader of nested values has read;
* `yields_value`, `yields_fits`: so every value is regular everywhere, and nests no deeper than the reader
  goes, by induction on the depth;
* `fits_of_parse`: what is read from a text is thus fit to be read back, if it holds no binary64 number.
-/

set_option autoImplicit false

namespace ContractBindings.Json

/-- Everything that a reader reads has a property. -/
def Reader.Yields {α : Type} (r : Reader α) (P : α → Prop) : Prop :=
  ∀ cs x rest, r cs = .ok (x, rest) → P x

/-! ## Fields -/

theorem mem_of_set {key : String} {v : Json} {fields : Fields} {m : String × Json}
    (h : m ∈ fields.set key v) : m = (key, v) ∨ m ∈ fields := by
  induction fields with
  | nil => exact Or.inl (List.mem_singleton.mp h)
  | cons x fields ih =>
    obtain ⟨k, old⟩ := x
    rw [Fields.set] at h
    split at h
    · rename_i hk
      subst hk
      exact (List.mem_cons.mp h).imp_right (List.mem_cons_of_mem _)
    · rcases List.mem_cons.mp h with h | h
      · exact Or.inr (h ▸ List.mem_cons_self)
      · exact (ih h).imp_right (List.mem_cons_of_mem _)

theorem mem_of_lookup {key : String} {v : Json} {fields : Fields} (h : fields.lookup key = some v) :
    ∃ m ∈ fields, m.2 = v := by
  induction fields with
  | nil => cases h
  | cons m fields ih =>
    obtain ⟨k, x⟩ := m
    by_cases hk : key = k
    · subst hk
      rw [List.lookup_cons_self] at h
      cases h
      exact ⟨_, List.mem_cons_self, rfl⟩
    · rw [List.lookup_cons, beq_eq_false_iff_ne.mpr hk] at h
      obtain ⟨m, hm, hv⟩ := ih h
      exact ⟨m, List.mem_cons_of_mem _ hm, hv⟩

theorem keys_set (key : String) (v : Json) (fields : Fields) :
    (fields.set key v).map Prod.fst =
      if key ∈ fields.map Prod.fst then fields.map Prod.fst else fields.map Prod.fst ++ [key] := by
  split
  · rename_i h
    induction fields with
    | nil => cases h
    | cons x fields ih =>
      obtain ⟨k, old⟩ := x
      rw [Fields.set]
      split
      · rfl
      · rename_i hk
        rw [List.map_cons, List.mem_cons] at h
        rw [List.map_cons, ih (h.resolve_left (Ne.symm hk)), List.map_cons]
  · rename_i h
    rw [set_of_not_mem h, List.map_append]
    rfl

/-- **No key of the fields is repeated.** -/
theorem nodup_fieldsOfMembers (ms : List (String × Json)) :
    ((Reader.fieldsOfMembers ms).map Prod.fst).Nodup := by
  induction ms using List.reverseRecOn with
  | nil => exact List.nodup_nil
  | append_singleton ms m ih =>
    rw [fieldsOfMembers_append, keys_set]
    split
    · exact ih
    · rename_i h
      rw [List.nodup_append]
      refine ⟨ih, by simp, ?_⟩
      rintro k hk _ hm rfl
      exact h (List.mem_singleton.mp hm ▸ hk)

theorem mem_of_fieldsOfMembers {ms : List (String × Json)} {m : String × Json}
    (h : m ∈ Reader.fieldsOfMembers ms) : m ∈ ms := by
  induction ms using List.reverseRecOn with
  | nil => cases h
  | append_singleton ms x ih =>
    rw [fieldsOfMembers_append] at h
    rcases mem_of_set h with rfl | h
    · simp
    · exact List.mem_append_left _ (ih h)

namespace Reader

/-! ## Containers -/

/-- Where neither the text nor an array ends, a value starts. -/
theorem startsValue_skipBlanks {cs : List Char} (hnil : skipBlanks cs ≠ [])
    (hclose : ∀ after, skipBlanks cs ≠ ']' :: after) : StartsValue (skipBlanks cs) := by
  obtain ⟨c, more, hcs⟩ := List.exists_cons_of_ne_nil hnil
  have hhead := List.head?_dropWhile_not isBlank cs
  rw [← skipBlanks, hcs] at hhead
  exact ⟨c, more, hcs, by simpa using hhead, fun hc => hclose more (hc ▸ hcs)⟩

section Cases

variable {α : Type} {item : Reader α} {budget : Nat} {cs rest : List Char}

/-- Behind an element the array ends, or a comma and another element come before those behind it. -/
theorem moreElements_cases {xs : List α} (hr : moreElements item (budget + 1) cs = .ok (xs, rest)) :
    (skipBlanks cs = ']' :: rest ∧ xs = []) ∨
      ∃ behind x next ys, skipBlanks cs = ',' :: behind ∧ StartsValue (skipBlanks behind) ∧
        item (skipBlanks behind) = .ok (x, next) ∧ moreElements item budget next = .ok (ys, rest) ∧
        xs = x :: ys := by
  rw [moreElements] at hr
  split at hr
  · cases hr
  · cases hr
    exact Or.inl ⟨by assumption, rfl⟩
  · rename_i behind hcomma
    split at hr
    · cases hr
    · cases hr
    · rename_i hnil hclose
      obtain ⟨⟨x, next⟩, hx, hr⟩ := bind_eq_ok.mp hr
      obtain ⟨⟨ys, last⟩, hys, hr⟩ := bind_eq_ok.mp hr
      cases hr
      exact Or.inr ⟨behind, x, next, ys, hcomma, startsValue_skipBlanks hnil hclose, hx, hys, rfl⟩
  · cases hr

/-- An array ends at once, or holds an element before those behind it. -/
theorem elements_cases {xs : List α} (hr : elements item budget cs = .ok (xs, rest)) :
    (skipBlanks cs = ']' :: rest ∧ xs = []) ∨
      ∃ x next ys, StartsValue (skipBlanks cs) ∧ item (skipBlanks cs) = .ok (x, next) ∧
        moreElements item budget next = .ok (ys, rest) ∧ xs = x :: ys := by
  unfold elements at hr
  split at hr
  · cases hr
  · cases hr
    exact Or.inl ⟨by assumption, rfl⟩
  · rename_i hnil hclose
    obtain ⟨⟨x, next⟩, hx, hr⟩ := bind_eq_ok.mp hr
    obtain ⟨⟨ys, last⟩, hys, hr⟩ := bind_eq_ok.mp hr
    cases hr
    exact Or.inr ⟨x, next, ys, startsValue_skipBlanks hnil hclose, hx, hys, rfl⟩

/-- Behind a member the object ends, or a comma and another member come before those behind it. -/
theorem moreMembers_cases {ms : List (String × α)}
    (hr : moreMembers item (budget + 1) cs = .ok (ms, rest)) :
    (skipBlanks cs = '\x7d' :: rest ∧ ms = []) ∨
      ∃ behind quoted m next ns, skipBlanks cs = ',' :: behind ∧ skipBlanks behind = '"' :: quoted ∧
        member item (budget + 1) quoted = .ok (m, next) ∧
        moreMembers item budget next = .ok (ns, rest) ∧ ms = m :: ns := by
  rw [moreMembers] at hr
  split at hr
  · cases hr
  · cases hr
    exact Or.inl ⟨by assumption, rfl⟩
  · rename_i behind hcomma
    split at hr
    · cases hr
    · rename_i quoted hquote
      obtain ⟨⟨m, next⟩, hm, hr⟩ := bind_eq_ok.mp hr
      obtain ⟨⟨ns, last⟩, hns, hr⟩ := bind_eq_ok.mp hr
      cases hr
      exact Or.inr ⟨behind, quoted, m, next, ns, hcomma, hquote, hm, hns, rfl⟩
    · cases hr
    · cases hr
  · cases hr

/-- An object ends at once, or holds a member before those behind it. -/
theorem members_cases {ms : List (String × α)} (hr : members item budget cs = .ok (ms, rest)) :
    (skipBlanks cs = '\x7d' :: rest ∧ ms = []) ∨
      ∃ quoted m next ns, skipBlanks cs = '"' :: quoted ∧ member item budget quoted = .ok (m, next) ∧
        moreMembers item budget next = .ok (ns, rest) ∧ ms = m :: ns := by
  unfold members at hr
  split at hr
  · cases hr
  · cases hr
    exact Or.inl ⟨by assumption, rfl⟩
  · rename_i quoted hquote
    obtain ⟨⟨m, next⟩, hm, hr⟩ := bind_eq_ok.mp hr
    obtain ⟨⟨ns, last⟩, hns, hr⟩ := bind_eq_ok.mp hr
    cases hr
    exact Or.inr ⟨quoted, m, next, ns, hquote, hm, hns, rfl⟩
  · cases hr

end Cases

section Yields

variable {α : Type} {item : Reader α} {P : α → Prop} (h : item.Yields P)
include h

theorem yields_moreElements (budget : Nat) :
    (moreElements item budget).Yields fun xs => ∀ x ∈ xs, P x := by
  induction budget with
  | zero => intro cs xs rest hr; cases hr
  | succ budget ih =>
    intro cs xs rest hr
    rcases moreElements_cases hr with ⟨_, rfl⟩ | ⟨_, x, next, ys, _, _, hx, hys, rfl⟩
    · simp
    · exact List.forall_mem_cons.mpr ⟨h _ _ _ hx, ih _ _ _ hys⟩

theorem yields_elements (budget : Nat) : (elements item budget).Yields fun xs => ∀ x ∈ xs, P x := by
  intro cs xs rest hr
  rcases elements_cases hr with ⟨_, rfl⟩ | ⟨x, next, ys, _, hx, hys, rfl⟩
  · simp
  · exact List.forall_mem_cons.mpr ⟨h _ _ _ hx, yields_moreElements h budget _ _ _ hys⟩

theorem yields_member (budget : Nat) : (member item budget).Yields fun m => P m.2 := by
  intro cs m rest hr
  unfold member at hr
  obtain ⟨⟨key, next⟩, _, hr⟩ := bind_eq_ok.mp hr
  obtain ⟨⟨_, next⟩, _, hr⟩ := bind_eq_ok.mp hr
  obtain ⟨⟨v, next⟩, hv, hr⟩ := bind_eq_ok.mp hr
  cases hr
  exact h _ _ _ hv

theorem yields_moreMembers (budget : Nat) :
    (moreMembers item budget).Yields fun ms => ∀ m ∈ ms, P m.2 := by
  induction budget with
  | zero => intro cs ms rest hr; cases hr
  | succ budget ih =>
    intro cs ms rest hr
    rcases moreMembers_cases hr with ⟨_, rfl⟩ | ⟨_, _, m, next, ns, _, _, hm, hns, rfl⟩
    · simp
    · exact List.forall_mem_cons.mpr ⟨yields_member h _ _ _ _ hm, ih _ _ _ hns⟩

theorem yields_members (budget : Nat) : (members item budget).Yields fun ms => ∀ m ∈ ms, P m.2 := by
  intro cs ms rest hr
  rcases members_cases hr with ⟨_, rfl⟩ | ⟨_, m, next, ns, _, hm, hns, rfl⟩
  · simp
  · exact List.forall_mem_cons.mpr ⟨yields_member h _ _ _ _ hm, yields_moreMembers h budget _ _ _ hns⟩

end Yields

/-! ## Values -/

theorem yields_number (negative : Bool) :
    (number negative).Yields fun n => Everywhere IsRegular (.number n) := by
  intro cs n rest hr
  obtain ⟨⟨⟨whole, fraction, exponent⟩, next⟩, _, hr⟩ := bind_eq_ok.mp hr
  obtain ⟨m, hm, hr⟩ := bind_eq_ok.mp hr
  cases hr
  refine everywhere_scalar (by simp) (by simp) ?_
  cases n with
  | integer n => exact numberOfParts_isWithin hm
  | real x => trivial

/-- What is read in a step whose result is wrapped up. -/
theorem exists_of_wrapped {α β : Type} {x : Except Fault (α × List Char)} {f : α → β} {y : β}
    {rest : List Char} (h : (x >>= fun p => .ok (f p.1, p.2)) = .ok (y, rest)) :
    ∃ a, x = .ok (a, rest) ∧ y = f a := by
  obtain ⟨⟨a, next⟩, hx, hy⟩ := bind_eq_ok.mp h
  cases hy
  exact ⟨a, hx, rfl⟩

/-- What is neither a string nor a container. -/
def IsPlain : Json → Prop
  | .string _ => False
  | .array _ => False
  | .object _ => False
  | _ => True

theorem IsPlain.ne_array {v : Json} (h : IsPlain v) (xs : List Json) : v ≠ .array xs := by
  rintro rfl
  exact h

theorem IsPlain.ne_object {v : Json} (h : IsPlain v) (ms : Fields) : v ≠ .object ms := by
  rintro rfl
  exact h

/-- The first character tells strings and containers.  What a container holds is read by the reader of nested
values. -/
theorem valueWith_cases {budget : Nat} {nested : Option (Reader Json)} {cs rest : List Char} {v : Json}
    (hr : valueWith budget nested cs = .ok (v, rest)) :
    (IsPlain v ∧ IsRegular v) ∨
      (∃ next s, skipBlanks cs = '"' :: next ∧ stringLiteral budget next = .ok (s, rest) ∧ v = .string s) ∨
      (∃ item next xs, nested = some item ∧ skipBlanks cs = '[' :: next ∧
        elements item budget next = .ok (xs, rest) ∧ v = .array xs) ∨
      ∃ item next ms, nested = some item ∧ skipBlanks cs = '\x7b' :: next ∧
        members item budget next = .ok (ms, rest) ∧ v = .object (fieldsOfMembers ms) := by
  unfold valueWith at hr
  split at hr
  · cases hr
  rename_i c next hskip
  split at hr
  · obtain ⟨_, _, rfl⟩ := exists_of_wrapped (f := fun _ => Json.null) hr
    exact Or.inl ⟨trivial, trivial⟩
  split at hr
  · obtain ⟨_, _, rfl⟩ := exists_of_wrapped (f := fun _ => Json.bool true) hr
    exact Or.inl ⟨trivial, trivial⟩
  split at hr
  · obtain ⟨_, _, rfl⟩ := exists_of_wrapped (f := fun _ => Json.bool false) hr
    exact Or.inl ⟨trivial, trivial⟩
  split at hr
  · rename_i hquote
    obtain ⟨s, hs, rfl⟩ := exists_of_wrapped (f := Json.string) hr
    exact Or.inr (Or.inl ⟨next, s, hquote ▸ hskip, hs, rfl⟩)
  split at hr
  · obtain ⟨n, hn, rfl⟩ := exists_of_wrapped (f := Json.number) hr
    exact Or.inl ⟨trivial, (yields_number _ _ _ _ hn).self⟩
  split at hr
  · obtain ⟨n, hn, rfl⟩ := exists_of_wrapped (f := Json.number) hr
    exact Or.inl ⟨trivial, (yields_number _ _ _ _ hn).self⟩
  split at hr
  · rename_i hopen
    split at hr
    · cases hr
    · obtain ⟨xs, hxs, rfl⟩ := exists_of_wrapped (f := Json.array) hr
      exact Or.inr (Or.inr (Or.inl ⟨_, next, xs, rfl, hopen ▸ hskip, hxs, rfl⟩))
  split at hr
  · rename_i hopen
    split at hr
    · cases hr
    · obtain ⟨ms, hms, rfl⟩ :=
        exists_of_wrapped (f := fun ms => Json.object (fieldsOfMembers ms)) hr
      exact Or.inr (Or.inr (Or.inr ⟨_, next, ms, rfl, hopen ▸ hskip, hms, rfl⟩))
  · cases hr

/-- A value is regular everywhere if those that stand in it are. -/
theorem yields_valueWith (budget : Nat) {nested : Option (Reader Json)}
    (h : ∀ item, nested = some item → item.Yields (Everywhere IsRegular)) :
    (valueWith budget nested).Yields (Everywhere IsRegular) := by
  intro cs v rest hr
  rcases valueWith_cases hr with ⟨hplain, hv⟩ | ⟨_, s, _, _, rfl⟩ |
    ⟨item, next, xs, hitem, _, hxs, rfl⟩ | ⟨item, next, ms, hitem, _, hms, rfl⟩
  · exact everywhere_scalar hplain.ne_array hplain.ne_object hv
  · exact everywhere_scalar nofun nofun trivial
  · exact everywhere_array_iff.mpr ⟨trivial, yields_elements (h item hitem) budget _ _ _ hxs⟩
  · refine everywhere_object_iff.mpr ⟨nodup_fieldsOfMembers ms, fun m hm => ?_⟩
    exact yields_members (h item hitem) budget _ _ _ hms m (mem_of_fieldsOfMembers hm)

/-- **Every value that is read is regular everywhere.** -/
theorem yields_value (budget depth : Nat) : (value budget depth).Yields (Everywhere IsRegular) := by
  induction depth with
  | zero => exact yields_valueWith budget (by simp)
  | succ depth ih =>
    refine yields_valueWith budget fun item hitem => ?_
    cases hitem
    exact ih

theorem fits_scalar {v : Json} (harray : ∀ xs, v ≠ .array xs) (hobject : ∀ ms, v ≠ .object ms)
    (depth : Nat) : Fits depth v := by
  cases v with
  | array xs => exact absurd rfl (harray xs)
  | object ms => exact absurd rfl (hobject ms)
  | _ => cases depth <;> trivial

/-- **No value that is read nests deeper than the reader goes.** -/
theorem yields_fits (budget depth : Nat) : (value budget depth).Yields (Fits depth) := by
  induction depth with
  | zero =>
    intro cs v rest hr
    rcases valueWith_cases hr with ⟨hplain, _⟩ | ⟨_, s, _, _, rfl⟩ | ⟨_, _, _, hitem, _⟩ |
      ⟨_, _, _, hitem, _⟩
    · exact fits_scalar hplain.ne_array hplain.ne_object 0
    · exact fits_scalar (by simp) (by simp) 0
    · cases hitem
    · cases hitem
  | succ depth ih =>
    intro cs v rest hr
    rcases valueWith_cases hr with ⟨hplain, _⟩ | ⟨_, s, _, _, rfl⟩ |
      ⟨item, next, xs, hitem, _, hxs, rfl⟩ | ⟨item, next, ms, hitem, _, hms, rfl⟩
    · exact fits_scalar hplain.ne_array hplain.ne_object (depth + 1)
    · exact fits_scalar (by simp) (by simp) (depth + 1)
    · cases hitem
      exact yields_elements ih budget _ _ _ hxs
    · cases hitem
      exact fun m hm => yields_members ih budget _ _ _ hms m (mem_of_fieldsOfMembers hm)

theorem run_yields {α : Type} {r : Reader α} {P : α → Prop} (h : r.Yields P) {text : String} {x : α}
    (hr : r.run text = .ok x) : P x := by
  unfold Reader.run at hr
  split at hr
  · cases hr
  · rename_i v rest hv
    split at hr
    · cases hr
      exact h _ _ _ hv
    · cases hr

end Reader

/-- What is read from a text is regular everywhere, and nests no deeper than it may. -/
theorem fits_of_parse {text : String} {v : Json} (h : parse text = .ok v) :
    Fits maxDepth v ∧ Everywhere IsRegular v :=
  ⟨Reader.run_yields (Reader.yields_fits _ _) h, Reader.run_yields (Reader.yields_value _ _) h⟩

end ContractBindings.Json
