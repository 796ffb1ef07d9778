import Mathlib
import ContractBindings.Proofs.Compiler.Output
import ContractBindings.Proofs.Json.Texts

/-!
# ABIs inside texts

A contract may hold its ABI as an array, or as a text in which that array stands without blanks.  Both are
read as the same contract.

* `AbiText`: what may be written for an ABI; `ContractText`, `ContractsText`: pairs of texts that are equal
  but for the ABIs;
* `abiOfJson_compact`: an array is read back from the text that holds it;
* `AbiText.reads`, `ContractText.reads`, `ContractsText.reads`: each of these is read in the second text if it
  is in the first, and what is read is related;
* `ContractRel.contractOfField`: what is related is read as the same contract;
* `covers_contractMap`: every map of contracts that is read is such a text, however its ABIs are written
  again.
-/

set_option autoImplicit false

namespace ContractBindings.Compiler

open Json Json.Reader

/-! ## Texts -/

/-- The text of a value stays as it is. -/
def SameText (t t' : List Char) : Prop := t' = t ∧ ∃ v, Spells t v

/-- An ABI stays as it is, or a text takes the place of an array.  A binary64 number may be read back as
another one. -/
inductive AbiText (t : List Char) : List Char → Prop where
  | same {v : Json} (h : Spells t v) : AbiText t t
  | packed {t' : List Char} {xs : List Json} (h : Spells t (.array xs))
    (hreal : Everywhere (fun u => ¬ IsReal u) (.array xs))
    (h' : Spells t' (.string (compact (.array xs)))) : AbiText t t'

section Texts

variable (P : List Char → List Char → Prop)

/-- The texts of a value of a contract: those of an ABI are related. -/
def ContractMember (k : String) (t t' : List Char) : Prop :=
  if k = "abi" then P t t' else SameText t t'

/-- The texts of a contract.  It may be written as an array that starts with the ABI. -/
inductive ContractText : List Char → List Char → Prop where
  | other {t : List Char} {v : Json} (h : Spells t v) (harray : ∀ xs, v ≠ .array xs)
    (hobject : ∀ ms, v ≠ .object ms) : ContractText t t
  | object {ks : List String} {t t' : List Char} (h : ObjectText (ContractMember P) ks t t') :
    ContractText t t'
  | array {t t' : List Char} (h : ArrayText P t t') : ContractText t t'

/-- The texts of the contracts with these keys. -/
def ContractsText (keys : List String) (t t' : List Char) : Prop :=
  ObjectText (fun _ => ContractText P) keys t t'

end Texts

/-! ## ABIs -/

/-- An array is read back from the text that holds it. -/
theorem abiOfJson_compact {xs : List Json} (h : IsExact maxDepth (.array xs)) :
    abiOfJson (.string (compact (.array xs))) = .ok xs := by
  have hsp := Spacing.isBlank_compact
  have hopen : chars .compact (.array xs) = '[' :: (chars .compact (.array xs)).tail := by cases xs <;> rfl
  have hlength : (compact (.array xs)).length = (chars .compact (.array xs)).length := by
    rw [compact, String.length_ofList]
  have hbudget : ∀ x ∈ xs, (chars .compact x).length < (compact (.array xs)).length + 1 := fun x hx => by
    have hlt := length_lt_array .compact hx
    rw [Spacing.inner] at hlt
    omega
  have hle : (chars .compact (.array xs)).length ≤ (compact (.array xs)).length + 1 := by omega
  have hread := elements_chars hsp (fun x hx => (h.element hx).notReal.self)
    (fun x hx rest hrest => value_chars hsp (h.element hx) (hbudget x hx) hrest) hle []
  rw [List.append_nil] at hread
  refine run_eq_ok_iff.mpr ⟨[], areBlanks_nil, ?_⟩
  rw [compact, String.toList_ofList, ← compact, hopen, abiText, skipBlanks_of_not_blank rfl]
  exact hread

/-- What the first ABI is read as, the second is. -/
def AbiRel (a a' : Json) : Prop := ∀ xs, abiOfJson a = .ok xs → abiOfJson a' = .ok xs

theorem AbiText.exists_spells {t t' : List Char} (h : AbiText t t') : ∃ v, Spells t v := by
  cases h with
  | same h => exact ⟨_, h⟩
  | packed h _ _ => exact ⟨_, h⟩

theorem AbiText.reads {t t' : List Char} (h : AbiText t t') {depth : Nat} (hdepth : depth ≤ maxDepth) :
    Reads (fun n => value n depth) AbiRel t t' := by
  cases h with
  | same h =>
    refine (h.reads hdepth).mono ?_
    rintro x x' ⟨rfl, rfl⟩ xs hxs
    exact hxs
  | packed h hreal h' =>
    rename_i xs
    obtain ⟨hfits, hregular⟩ := fits_of_parse h
    obtain ⟨b', hb', hread'⟩ := h'.string
    intro n next x after hnext hx
    obtain ⟨b, _, _, hb, hafter, ⟨rfl, _⟩, _⟩ := h.reads hdepth hnext hx
    refine ⟨b, _, b', hb, hafter, ?_, hb', fun budget next' hbudget hnext' => hread' hbudget hnext'⟩
    rintro ys hys
    cases hys
    exact abiOfJson_compact ⟨hfits, hregular, hreal⟩

theorem spells_compact {v : Json} (h : IsExact maxDepth v) : Spells (chars .compact v) v := by
  have hread := value_chars Spacing.isBlank_compact h (Nat.lt_succ_self _) closes_nil.endsNumber
  rw [List.append_nil] at hread
  exact spells_iff.mpr ⟨[], areBlanks_nil, hread⟩

theorem spells_stringText (s : String) : Spells (stringText s) (.string s) :=
  spells_compact (v := .string s)
    ⟨trivial, everywhere_scalar (by simp) (by simp) trivial, everywhere_scalar (by simp) (by simp) id⟩

/-- An array may always be put into a text, if it holds no numbers that are rounded. -/
theorem abiText_stringText {t : List Char} {xs : List Json} (h : Spells t (.array xs))
    (hreal : Everywhere (fun u => ¬ IsReal u) (.array xs)) :
    AbiText t (stringText (compact (.array xs))) := .packed h hreal (spells_stringText _)

/-! ## Contracts -/

/-- The second value is a contract if the first is, with the same code and an ABI that is read alike. -/
def ContractRel (v v' : Json) : Prop :=
  ∀ abi code, contractOfJson v = .ok (abi, code) →
    ∃ abi', contractOfJson v' = .ok (abi', code) ∧ AbiRel abi abi'

theorem ContractRel.refl (v : Json) : ContractRel v v := fun abi _ h => ⟨abi, h, fun _ hxs => hxs⟩

theorem ContractRel.contractOfField {v v' : Json} (h : ContractRel v v') {key : String}
    {c : CompiledContract} (hc : contractOfField key v = .ok c) : contractOfField key v' = .ok c := by
  unfold Compiler.contractOfField at hc ⊢
  split at hc
  · cases hc
  rename_i abi code habi
  obtain ⟨abi', habi', hrel⟩ := h abi code habi
  split at hc
  · cases hc
  rename_i items hitems
  rw [habi']
  simp only [hrel items hitems]
  exact hc

section Fields

variable {V : String → Json → Json → Prop}

/-- Fields with the same keys and related values. -/
def FieldsRel (V : String → Json → Json → Prop) (fields fields' : Fields) : Prop :=
  List.Forall₂ (fun m m' => m'.1 = m.1 ∧ V m.1 m.2 m'.2) fields fields'

theorem FieldsRel.set {fields fields' : Fields} (h : FieldsRel V fields fields') {key : String} {v v' : Json}
    (hv : V key v v') : FieldsRel V (fields.set key v) (fields'.set key v') := by
  induction h with
  | nil => exact .cons ⟨rfl, hv⟩ .nil
  | @cons m m' fields fields' hm hrest ih =>
    obtain ⟨k, x⟩ := m
    obtain ⟨k', x'⟩ := m'
    obtain ⟨rfl, hx⟩ := hm
    rw [Fields.set, Fields.set]
    split
    · rename_i hk
      exact .cons ⟨rfl, hk ▸ hv⟩ hrest
    · exact .cons ⟨rfl, hx⟩ ih

/-- Related members make related fields. -/
theorem fieldsRel_fieldsOfMembers {ms ms' : List (String × Json)}
    (h : List.Forall₂ (fun m m' => m'.1 = m.1 ∧ V m.1 m.2 m'.2) ms ms') :
    FieldsRel V (fieldsOfMembers ms) (fieldsOfMembers ms') := by
  have hfold : ∀ {fields fields' : Fields}, FieldsRel V fields fields' →
      FieldsRel V (ms.foldl (fun fields m => fields.set m.1 m.2) fields)
        (ms'.foldl (fun fields m => fields.set m.1 m.2) fields') := by
    induction h with
    | nil => exact id
    | cons hm _ ih =>
      intro fields fields' hfields
      rw [List.foldl_cons, List.foldl_cons, hm.1]
      exact ih (hfields.set hm.2)
  exact hfold .nil

theorem FieldsRel.lookup {fields fields' : Fields} (h : FieldsRel V fields fields') (key : String) :
    (fields.lookup key = none ∧ fields'.lookup key = none) ∨
      ∃ v v', fields.lookup key = some v ∧ fields'.lookup key = some v' ∧ V key v v' := by
  induction h with
  | nil => exact Or.inl ⟨rfl, rfl⟩
  | @cons m m' fields fields' hm _ ih =>
    obtain ⟨k, x⟩ := m
    obtain ⟨k', x'⟩ := m'
    obtain ⟨rfl, hx⟩ := hm
    by_cases hk : key = k'
    · subst hk
      exact Or.inr ⟨x, x', List.lookup_cons_self, List.lookup_cons_self, hx⟩
    · rw [List.lookup_cons, List.lookup_cons, beq_eq_false_iff_ne.mpr hk]
      exact ih

/-- The keys of fields are those of the members, each at its first place. -/
theorem keys_fieldsOfMembers (ms : List (String × Json)) :
    (fieldsOfMembers ms).map Prod.fst = (ms.map Prod.fst).eraseDups := by
  induction ms using List.reverseRecOn with
  | nil => rfl
  | append_singleton ms m ih =>
    rw [fieldsOfMembers_append, keys_set, ih, List.map_append, List.eraseDups_append]
    by_cases hm : m.1 ∈ ms.map Prod.fst
    · rw [if_pos (List.mem_eraseDups.mpr hm)]
      have hnone : [m.1].removeAll (ms.map Prod.fst) = [] := by
        rw [List.removeAll, List.filter_cons_of_neg (by simpa using hm), List.filter_nil]
      rw [List.map_cons, List.map_nil, hnone, List.eraseDups_nil, List.append_nil]
    · rw [if_neg fun h => hm (List.mem_eraseDups.mp h)]
      have hself : [m.1].removeAll (ms.map Prod.fst) = [m.1] := by
        rw [List.removeAll, List.filter_cons_of_pos (by simpa using hm), List.filter_nil]
      rw [List.map_cons, List.map_nil, hself]
      rfl

end Fields

/-- What is related of the values of a contract. -/
def MemberRel (k : String) (v v' : Json) : Prop := if k = "abi" then AbiRel v v' else v' = v

theorem contractRel_object {fields fields' : Fields} (h : FieldsRel MemberRel fields fields') :
    ContractRel (.object fields) (.object fields') := by
  intro abi code hc
  have hbin : fields'.lookup "bin" = fields.lookup "bin" := by
    rcases h.lookup "bin" with ⟨hnone, hnone'⟩ | ⟨v, v', hv, hv', hrel⟩
    · rw [hnone, hnone']
    · have heq : v' = v := hrel
      rw [hv, hv', heq]
  have habi := lookup_of_contractOfMembers hc
  obtain ⟨hnone, _⟩ | ⟨v, abi', hv, habi', hrel⟩ := h.lookup "abi"
  · rw [habi] at hnone
    cases hnone
  rw [habi] at hv
  cases hv
  refine ⟨abi', ?_, hrel⟩
  -- the code is read from the same value
  have hc' : contractOfMembers fields = .ok (abi, code) := hc
  show contractOfMembers fields' = _
  unfold contractOfMembers at hc' ⊢
  rw [hbin, habi']
  rw [habi] at hc'
  cases hfound : fields.lookup "bin" with
  | none =>
    rw [hfound] at hc'
    cases hc'
    rfl
  | some v =>
    rw [hfound] at hc'
    obtain ⟨found, hread, hc'⟩ := bind_eq_ok.mp hc'
    cases hc'
    exact bind_eq_ok.mpr ⟨_, hread, rfl⟩

theorem contractRel_array {xs xs' : List Json} (h : ElementsRel AbiRel xs xs') :
    ContractRel (.array xs) (.array xs') := by
  cases h with
  | nil => exact ContractRel.refl _
  | cons hx xs =>
    rename_i x x'
    intro abi code hc
    rcases xs with _ | ⟨y, ys⟩
    · cases hc
      exact ⟨x', rfl, hx⟩
    · obtain ⟨code', hcode, hc⟩ := bind_eq_ok.mp hc
      split at hc
      · rename_i hend
        cases hc
        exact ⟨x', bind_eq_ok.mpr ⟨_, hcode, if_pos hend⟩, hx⟩
      · cases hc

theorem ContractText.reads {P : List Char → List Char → Prop} (hP : ∀ t t', P t t' → AbiText t t')
    {t t' : List Char} (h : ContractText P t t') {depth : Nat} (hdepth : depth + 1 ≤ maxDepth) :
    Reads (fun n => value n (depth + 1)) ContractRel t t' := by
  cases h with
  | other h =>
    refine (h.reads hdepth).mono ?_
    rintro x x' ⟨rfl, rfl⟩
    exact ContractRel.refl _
  | object h =>
    refine h.reads_value (V := MemberRel) (fun {k t t'} ht => ?_) fun ms ms' hms =>
      contractRel_object (fieldsRel_fieldsOfMembers hms.values)
    by_cases hk : k = "abi"
    · rw [ContractMember, if_pos hk] at ht
      refine ((hP t t' ht).reads (by omega)).mono fun x x' hx => ?_
      rwa [MemberRel, if_pos hk]
    · rw [ContractMember, if_neg hk] at ht
      obtain ⟨rfl, v, hv⟩ := ht
      refine (hv.reads (by omega)).mono ?_
      rintro x x' ⟨rfl, rfl⟩
      rw [MemberRel, if_neg hk]
  | array h =>
    have hreads : ∀ {t t'}, P t t' → Reads (fun n => value n depth) AbiRel t t' := fun ht =>
      (hP _ _ ht).reads (by omega)
    exact h.reads_value (by omega) (fun ht => (hP _ _ ht).exists_spells) hreads fun _ _ => contractRel_array

/-- What is related of the contracts with these keys. -/
structure ContractsRel (keys : List String) (fields fields' : Fields) : Prop where
  keys : fields.map Prod.fst = keys.eraseDups
  values : FieldsRel (fun _ => ContractRel) fields fields'

theorem contractMap_of_object {cs rest : List Char} (h : Json.skipBlanks cs = '\x7b' :: rest)
    (n depth : Nat) :
    contractMap n depth cs =
      (objectOf (fun n => value n depth) n cs >>= fun p => .ok (fieldsOfMembers p.1, p.2)) := by
  simp only [contractMap, objectOf, h]

theorem ContractsText.reads {P : List Char → List Char → Prop} (hP : ∀ t t', P t t' → AbiText t t')
    {keys : List String} {t t' : List Char} (h : ContractsText P keys t t') {depth : Nat}
    (hdepth : depth + 1 ≤ maxDepth) :
    Reads (fun n => contractMap n (depth + 1)) (ContractsRel keys) t t' := by
  have hmembers := ObjectText.reads (V := fun _ => ContractRel) h fun ht => ht.reads hP hdepth
  have hfields : ∀ ms ms', MembersRel keys (fun _ => ContractRel) ms ms' →
      ContractsRel keys (fieldsOfMembers ms) (fieldsOfMembers ms') := fun ms ms' hms =>
    ⟨by rw [keys_fieldsOfMembers, hms.keys], fieldsRel_fieldsOfMembers hms.values⟩
  refine (hmembers.map fieldsOfMembers hfields).congr (fun n next => ?_) fun n next => ?_
  · obtain ⟨rest, hrest⟩ := (ObjectText.opens h).1 next
    exact contractMap_of_object hrest n (depth + 1)
  · obtain ⟨rest, hrest⟩ := (ObjectText.opens h).2 next
    exact contractMap_of_object hrest n (depth + 1)

/-! ## Contracts that are read -/

section Covered

variable {P : List Char → List Char → Prop}

/-- A contract is read from a text of a contract, if something may be written for every ABI. -/
theorem covers_contract (hP : ∀ t v, Spells t v → ∃ t', P t t') {depth : Nat}
    (hdepth : depth + 1 ≤ maxDepth) :
    Covers (fun n => value n (depth + 1)) fun t _ => ∃ t', ContractText P t t' := by
  have habi : Covers (fun n => value n depth) fun t _ => ∃ t', P t t' := fun n cs b next v hb hnext hv => by
    obtain ⟨t, hcs, ht⟩ := covers_value (by omega) hb hnext hv
    exact ⟨t, hcs, hP t v ht⟩
  have hmember : ∀ k, Covers (fun n => value n depth) fun t _ => ∃ t', ContractMember P k t t' := by
    intro k n cs b next v hb hnext hv
    by_cases hk : k = "abi"
    · obtain ⟨t, hcs, t', ht⟩ := habi hb hnext hv
      exact ⟨t, hcs, t', by rwa [ContractMember, if_pos hk]⟩
    · obtain ⟨t, hcs, ht⟩ := covers_value (by omega) hb hnext hv
      exact ⟨t, hcs, t, by rw [ContractMember, if_neg hk]; exact ⟨rfl, v, ht⟩⟩
  intro n cs b next v hb hnext hv
  have hother : (∀ xs, v ≠ .array xs) → (∀ ms, v ≠ .object ms) →
      ∃ t, cs = t ++ next ∧ ∃ t', ContractText P t t' := fun harray hobject => by
    obtain ⟨t, hcs, ht⟩ := covers_value hdepth hb hnext hv
    exact ⟨t, hcs, t, .other ht harray hobject⟩
  rcases valueWith_cases hv with ⟨hplain, _⟩ | ⟨_, s, _, _, rfl⟩ |
    ⟨item, inside, xs, hitem, hskip, hxs, rfl⟩ | ⟨item, inside, ms, hitem, hskip, hms, rfl⟩
  · exact hother hplain.ne_array hplain.ne_object
  · exact hother nofun nofun
  · cases hitem
    obtain ⟨t, hcs, t', ht⟩ := covers_arrayOf (by omega) habi hb hnext
      ((arrayOf_of_skipBlanks hskip n).trans hxs)
    exact ⟨t, hcs, t', .array ht⟩
  · cases hitem
    obtain ⟨t, hcs, t', ht⟩ := covers_objectOf (R := ContractMember P) hmember hb hnext
      ((objectOf_of_skipBlanks hskip n).trans hms)
    exact ⟨t, hcs, t', .object ht⟩

/-- **So is a map of contracts.** -/
theorem covers_contractMap (hP : ∀ t v, Spells t v → ∃ t', P t t') {depth : Nat}
    (hdepth : depth + 1 ≤ maxDepth) :
    Covers (fun n => contractMap n (depth + 1)) fun t _ => ∃ keys t', ContractsText P keys t t' := by
  intro n cs b next fields hb hnext h
  have hopen : ∃ rest, Json.skipBlanks cs = '\x7b' :: rest := by
    simp only [contractMap] at h
    split at h
    · cases h
    · exact ⟨_, by assumption⟩
    · cases h
  obtain ⟨rest, hrest⟩ := hopen
  simp only [contractMap_of_object hrest] at h
  obtain ⟨⟨ms, after⟩, hms, h⟩ := bind_eq_ok.mp h
  cases h
  obtain ⟨t, hcs, t', ht⟩ := covers_objectOf (R := fun _ => ContractText P)
    (fun _ => covers_contract hP hdepth) hb hnext hms
  exact ⟨t, hcs, _, t', ht⟩

end Covered

end ContractBindings.Compiler
