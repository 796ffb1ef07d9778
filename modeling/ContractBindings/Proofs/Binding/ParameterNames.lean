import ContractBindings.Binding.Member
import ContractBindings.Proofs.Text.Identifier

/-!
# Names of parameters

Parameters are named one after another.  A name that is taken gets a number appended, counting up from the
position until it is free.

* `exists_isLeastFree`: counting comes to an end, because the numbered names are different and only as
  many are taken as there are names before;
* `isNameFor_distinctName`: one parameter gets its own name, or the first numbered one that is free;
* `parameterNames_distinct`: so all of them have different names, which can be used as such.
-/

set_option autoImplicit false

namespace ContractBindings.Binding

open Text

variable {taken taken' : List String} {base name : String} {n index tries : Nat} {ps : List Parameter}

/-! ## Numbered names -/

theorem numbered_injective (base : String) : Function.Injective (numbered base) := by
  intro m n h
  have hchars := congrArg String.toList h
  simp only [numbered, String.toList_append] at hchars
  exact Nat.repr_inj.mp (String.toList_injective (List.append_cancel_left hchars))

/-- A number behind an identifier makes a name that can be used. -/
theorem isUsable_numbered (h : isIdentifier base = true) (n : Nat) : IsUsable (numbered base n) :=
  IsUsable.append_repr (isIdentifier_append h (by simp [isIdentifierPart])) n

/-- `k` is the least number from `n` on with which the base is free. -/
structure IsLeastFree (taken : List String) (base : String) (n k : Nat) : Prop where
  le : n ≤ k
  free : numbered base k ∉ taken
  below : ∀ j, n ≤ j → j < k → numbered base j ∈ taken

/-- One of the first numbers is free: they are one more than there are names taken. -/
theorem exists_free (taken : List String) (base : String) (n : Nat) :
    ∃ i ≤ taken.length, numbered base (n + i) ∉ taken := by
  by_contra hall
  push Not at hall
  have hnodup : ((List.range (taken.length + 1)).map fun i => numbered base (n + i)).Nodup := by
    refine List.nodup_range.map fun i j hij => ?_
    have hsame := numbered_injective base hij
    omega
  have hsub : ((List.range (taken.length + 1)).map fun i => numbered base (n + i)) ⊆ taken := by
    intro t ht
    obtain ⟨i, hi, rfl⟩ := List.mem_map.mp ht
    exact hall i (Nat.lt_succ_iff.mp (List.mem_range.mp hi))
  have hlength := (hnodup.subperm hsub).length_le
  simp at hlength

/-- **Counting finds the least free number**, if one of the numbers that it tries is free. -/
theorem firstFree_eq (h : ∃ i ≤ tries, numbered base (n + i) ∉ taken) :
    ∃ k, IsLeastFree taken base n k ∧ firstFree taken base n tries = numbered base k := by
  induction tries generalizing n with
  | zero =>
    obtain ⟨i, hi, hfree⟩ := h
    obtain rfl : i = 0 := by omega
    exact ⟨n, ⟨le_rfl, hfree, fun j hj hlt => absurd hlt (by omega)⟩, rfl⟩
  | succ tries ih =>
    unfold firstFree
    by_cases htaken : numbered base n ∈ taken
    · -- the free number is a later one
      have hlater : ∃ i ≤ tries, numbered base (n + 1 + i) ∉ taken := by
        obtain ⟨i, hi, hfree⟩ := h
        cases i with
        | zero => exact absurd htaken hfree
        | succ i => exact ⟨i, by omega, by rwa [Nat.add_right_comm]⟩
      obtain ⟨k, hk, heq⟩ := ih hlater
      refine ⟨k, ⟨by have := hk.le; omega, hk.free, fun j hj hlt => ?_⟩, ?_⟩
      · rcases Nat.eq_or_lt_of_le hj with rfl | hj
        · exact htaken
        · exact hk.below j hj hlt
      · rw [if_pos (by simpa using htaken), heq]
    · refine ⟨n, ⟨le_rfl, htaken, fun j hj hlt => absurd hlt (by omega)⟩, ?_⟩
      rw [if_neg (by simpa using htaken)]

/-- **Counting comes to an end**, whatever is taken. -/
theorem exists_isLeastFree (taken : List String) (base : String) (n : Nat) :
    ∃ k, IsLeastFree taken base n k ∧ firstFree taken base n taken.length = numbered base k :=
  firstFree_eq (exists_free taken base n)

/-! ## One name -/

/--
The name for a base at a position, when the names before are taken: the base, unless it is taken, and else
the base with the least number from the position on that makes it free.
-/
def IsNameFor (taken : List String) (base : String) (index : Nat) (name : String) : Prop :=
  base ∉ taken ∧ name = base ∨
    base ∈ taken ∧ ∃ k, IsLeastFree taken base index k ∧ name = numbered base k

theorem isNameFor_distinctName (taken : List String) (base : String) (index : Nat) :
    IsNameFor taken base index (distinctName taken base index) := by
  unfold distinctName
  by_cases h : base ∈ taken
  · obtain ⟨k, hk, heq⟩ := exists_isLeastFree taken base index
    exact Or.inr ⟨h, k, hk, by rw [if_pos (by simpa using h), heq]⟩
  · exact Or.inl ⟨h, if_neg (by simpa using h)⟩

/-- It does not matter in which order names are taken. -/
theorem IsNameFor.congr (hsame : ∀ t, t ∈ taken ↔ t ∈ taken') (h : IsNameFor taken base index name) :
    IsNameFor taken' base index name := by
  rcases h with ⟨hfree, heq⟩ | ⟨htaken, k, hk, heq⟩
  · exact Or.inl ⟨mt (hsame base).mpr hfree, heq⟩
  · refine Or.inr ⟨(hsame base).mp htaken, k, ⟨hk.le, mt (hsame _).mpr hk.free, ?_⟩, heq⟩
    exact fun j hj hlt => (hsame _).mp (hk.below j hj hlt)

theorem IsNameFor.not_mem (h : IsNameFor taken base index name) : name ∉ taken := by
  rcases h with ⟨hfree, rfl⟩ | ⟨_, k, hk, rfl⟩
  · exact hfree
  · exact hk.free

theorem IsNameFor.isUsable (hbase : IsUsable base) (h : IsNameFor taken base index name) :
    IsUsable name := by
  rcases h with ⟨_, rfl⟩ | ⟨_, k, _, rfl⟩
  · exact hbase
  · exact isUsable_numbered hbase.identifier k

/-! ## All names -/

theorem length_distinctNames (taken : List String) (index : Nat) (ps : List Parameter) :
    (distinctNames taken index ps).length = ps.length := by
  induction ps generalizing taken index with
  | nil => rfl
  | cons p ps ih => rw [distinctNames, List.length_cons, ih, List.length_cons]

/-- **Each parameter is named in turn**, and all names before it are taken then. -/
theorem isNameFor_distinctNames (taken : List String) (index : Nat) (ps : List Parameter) {i : Nat}
    {p : Parameter} (hp : ps[i]? = some p) : ∃ name, (distinctNames taken index ps)[i]? = some name ∧
      IsNameFor ((distinctNames taken index ps).take i ++ taken) (parameterName p.name (index + i))
        (index + i) name := by
  induction ps generalizing taken index i with
  | nil => simp at hp
  | cons q ps ih =>
    rw [distinctNames]
    cases i with
    | zero =>
      obtain rfl : q = p := by simpa using hp
      exact ⟨_, rfl, isNameFor_distinctName taken _ index⟩
    | succ i =>
      obtain ⟨name, hname, hturn⟩ := ih
        (distinctName taken (parameterName q.name index) index :: taken) (index + 1) (by simpa using hp)
      refine ⟨name, by simpa using hname, ?_⟩
      rw [Nat.add_assoc, Nat.add_comm 1 i] at hturn
      refine hturn.congr fun t => ?_
      simp only [List.mem_append, List.mem_cons, List.take_succ_cons]
      tauto

theorem isUsable_of_mem_distinctNames (h : name ∈ distinctNames taken index ps) : IsUsable name := by
  induction ps generalizing taken index with
  | nil => cases h
  | cons p ps ih =>
    rw [distinctNames] at h
    rcases List.mem_cons.mp h with rfl | h
    · exact (isNameFor_distinctName taken _ index).isUsable (isUsable_parameterName p.name index)
    · exact ih h

/-- Names that are given in turn, each of them free when it is given, are different. -/
theorem nodup_of_not_mem_take {names : List String}
    (h : ∀ i name, names[i]? = some name → name ∉ names.take i) : names.Nodup := by
  induction names using List.reverseRecOn with
  | nil => exact List.nodup_nil
  | append_singleton names last ih =>
    rw [List.nodup_append_comm, List.singleton_append, List.nodup_cons]
    refine ⟨?_, ih fun i name hi => ?_⟩
    · simpa using h names.length last (by simp)
    · have hlt : i < names.length := (List.getElem?_eq_some_iff.mp hi).1
      have hnot := h i name (by rw [List.getElem?_append_left hlt, hi])
      rwa [List.take_append_of_le_length hlt.le] at hnot

/--
**Parameters have different names**, as many as there are parameters, and all of them are identifiers and
no reserved words.  Each parameter is named in turn: its name is taken over as an identifier, or its
position makes one, and if that is the name of an earlier parameter then with the least number from its
position on that makes it free.
-/
theorem parameterNames_distinct (ps : List Parameter) :
    (parameterNames ps).length = ps.length ∧ (parameterNames ps).Nodup ∧
      (∀ name ∈ parameterNames ps, isIdentifier name = true ∧ name ∉ reservedWords) ∧
      ∀ i p, ps[i]? = some p → ∃ name, (parameterNames ps)[i]? = some name ∧
        IsNameFor ((parameterNames ps).take i) (parameterName p.name i) i name := by
  have hlength : (parameterNames ps).length = ps.length := length_distinctNames [] 0 ps
  have hturn : ∀ i p, ps[i]? = some p → ∃ name, (parameterNames ps)[i]? = some name ∧
      IsNameFor ((parameterNames ps).take i) (parameterName p.name i) i name := by
    intro i p hp
    have h := isNameFor_distinctNames [] 0 ps hp
    simpa only [parameterNames, List.append_nil, Nat.zero_add] using h
  -- every name is the name of some parameter
  have hnamed : ∀ i name, (parameterNames ps)[i]? = some name → ∃ p : Parameter,
      IsNameFor ((parameterNames ps).take i) (parameterName p.name i) i name := by
    intro i name hi
    have hlt : i < ps.length := hlength ▸ (List.getElem?_eq_some_iff.mp hi).1
    obtain ⟨name', hi', hname⟩ := hturn i ps[i] (List.getElem?_eq_getElem hlt)
    rw [hi] at hi'
    cases hi'
    exact ⟨_, hname⟩
  refine ⟨hlength, nodup_of_not_mem_take fun i name hi => ?_, fun name hmem => ?_, hturn⟩
  · obtain ⟨p, hp⟩ := hnamed i name hi
    exact hp.not_mem
  · obtain ⟨i, hi⟩ := List.mem_iff_getElem?.mp hmem
    obtain ⟨p, hp⟩ := hnamed i name hi
    have husable := hp.isUsable (isUsable_parameterName p.name i)
    exact ⟨husable.identifier, husable.not_reserved⟩

/-- An earlier number is passed over if a parameter has been given it as its own name. -/
example : parameterNames [⟨"a_1", .bool⟩, ⟨"a", .bool⟩, ⟨"a", .bool⟩, ⟨"with", .bool⟩, ⟨"", .bool⟩] =
    ["a_1", "a", "a_2", "_with", "arg4"] := by decide +kernel

end ContractBindings.Binding
