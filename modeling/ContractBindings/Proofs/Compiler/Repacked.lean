import Mathlib
import ContractBindings.Proofs.Compiler.Packed
import ContractBindings.Proofs.Compiler.Skipped

/-!
# Output with ABIs inside texts

The output of a compiler may hold the ABIs of its contracts as arrays or as texts: the same contracts are
read, one for each key.

* `OutputText`: pairs of texts of an output that are equal but for the ABIs of the contracts under some keys;
* `Repacks`: the same of two outputs;
* `outputMember_reads`, `moreOutputMembers_reads`, `OutputText.reads`: the contracts in the second text
  are related to those in the first, from one member to all of them;
* `covers_output`: every output that is read is such a text;
* `IsNamed`: how the key of a contract is made of its source and its name;
* `contractsOf_repacked`: **the ABIs may be arrays or texts**.
-/

set_option autoImplicit false

namespace ContractBindings.Compiler

open Json Json.Reader

/-! ## Texts -/

/-- The text is one that may be passed over. -/
def IsSkippable (t : List Char) : Prop := (Skip.value (t.length + 1)).run (String.ofList t) = .ok ()

section Texts

variable (P : List Char → List Char → Prop)

/-- The texts of a value of the outermost object. -/
def OutputMember (keys : List String) (k : String) (t t' : List Char) : Prop :=
  if k = contractsField then ContractsText P keys t t' else t' = t ∧ IsSkippable t

/-- The texts of an output with contracts under these keys.  It may be written as an array of the contracts
alone. -/
inductive OutputText : List String → List Char → List Char → Prop where
  | object {keys outer : List String} {t t' : List Char} (h : ObjectText (OutputMember P keys) outer t t')
    (hkeys : contractsField ∉ outer → keys = []) : OutputText keys t t'
  | empty {a b c : List Char} (ha : AreBlanks a) (hb : AreBlanks b) (hc : AreBlanks c) :
    OutputText [] (a ++ '[' :: (b ++ ']' :: c)) (a ++ '[' :: (b ++ ']' :: c))
  | array {keys : List String} {a c t t' : List Char} (ha : AreBlanks a) (hc : AreBlanks c)
    (h : ContractsText P keys t t') :
    OutputText keys (a ++ '[' :: (t ++ ']' :: c)) (a ++ '[' :: (t' ++ ']' :: c))

/-- The second output is the first one with its ABIs written again; the keys are those of the contracts, in
order and as often as they stand there. -/
def Repacks (keys : List String) (stdout stdout' : String) : Prop :=
  OutputText P keys stdout.toList stdout'.toList

end Texts

/-! ## Members of the outermost object -/

section Member

variable {n depth : Nat} {cs rest : List Char} {found result : Option Fields}

theorem outputMember_contracts {fields : Fields}
    (h : member (contractMap n depth) n cs = .ok ((contractsField, fields), rest)) :
    outputMember n depth none cs = .ok (some fields, rest) := by
  obtain ⟨⟨k, behind⟩, hk, h⟩ := bind_eq_ok.mp h
  obtain ⟨⟨_, y⟩, hcolon, h⟩ := bind_eq_ok.mp h
  obtain ⟨⟨fields, after⟩, hfields, h⟩ := bind_eq_ok.mp h
  cases h
  simp only [outputMember, hk, hcolon, hfields, if_true, bind, Except.bind]

theorem outputMember_skipped {k : String} (hkey : k ≠ contractsField)
    (h : member (Skip.value n) n cs = .ok ((k, ()), rest)) :
    outputMember n depth found cs = .ok (found, rest) := by
  obtain ⟨⟨k, behind⟩, hk, h⟩ := bind_eq_ok.mp h
  obtain ⟨⟨_, y⟩, hcolon, h⟩ := bind_eq_ok.mp h
  obtain ⟨⟨_, after⟩, hskip, h⟩ := bind_eq_ok.mp h
  cases h
  simp only [outputMember, hk, hcolon, hskip, hkey, if_false, bind, Except.bind]

end Member

theorem isSkippable_iff {t : List Char} :
    IsSkippable t ↔ ∃ b, AreBlanks b ∧ Skip.value (t.length + 1) t = .ok ((), b) := by
  rw [IsSkippable, run_eq_ok_iff, String.toList_ofList]

theorem IsSkippable.reads {t : List Char} (h : IsSkippable t) : Reads Skip.value (fun _ _ => True) t t := by
  obtain ⟨b, hb, hread⟩ := isSkippable_iff.mp h
  have hlocal := Skip.isLocal_value
  exact (reads_same hlocal hlocal hlocal hread hb).mono fun _ _ _ => trivial

/-! ## Reading two outputs -/

section Reads

variable {P : List Char → List Char → Prop} {keys : List String} {n : Nat}
  {found found' result : Option Fields}

/-- One step: from contracts that are related, a member leads to contracts that are related. -/
theorem outputMember_reads (hP : ∀ t t', P t t' → AbiText t t') {k : String}
    {key inner bk t t' next after : List Char} (hkey : ReadsKey key inner bk k)
    (h : OutputMember P keys k t t') (hrel : Option.Rel (ContractsRel keys) found found')
    (hnext : Closes next)
    (hr : outputMember n (maxDepth - 2) found (inner ++ ':' :: (t ++ next)) = .ok (result, after)) :
    ∃ b result' b', AreBlanks b ∧ after = b ++ next ∧ Option.Rel (ContractsRel keys) result result' ∧
      (result = none → found = none ∧ k ≠ contractsField) ∧ AreBlanks b' ∧
      ∀ ⦃budget : Nat⦄ ⦃next' : List Char⦄, inner.length < budget → t'.length < budget → Closes next' →
        outputMember budget (maxDepth - 2) found' (inner ++ ':' :: (t' ++ next')) =
          .ok (result', b' ++ next') := by
  rcases outputMember_cases hr with ⟨rfl, fields, hm, rfl⟩ | ⟨rfl, k', hk', hm⟩
  · obtain ⟨hk, hfields⟩ := hkey.of_member hm
    cases hrel
    rw [OutputMember, if_pos hk.symm] at h
    obtain ⟨b, fields', b', hb, hafter, hV, hb', hread⟩ :=
      h.reads hP (by decide : 124 + 1 ≤ maxDepth) hnext hfields
    refine ⟨b, some fields', b', hb, hafter, .some hV, nofun, hb', fun budget next' hinner ht' hnext' => ?_⟩
    have hmember := hkey.member hinner (hread ht' hnext')
    rw [← hk] at hmember
    exact outputMember_contracts hmember
  · obtain ⟨hk, hskip⟩ := hkey.of_member hm
    have hne : k ≠ contractsField := fun hcontra => hk' (hk.trans hcontra)
    rw [OutputMember, if_neg hne] at h
    obtain ⟨rfl, ht⟩ := h
    obtain ⟨b, _, b', hb, hafter, _, hb', hread⟩ := ht.reads hnext hskip
    exact ⟨b, found', b', hb, hafter, hrel, fun hnone => ⟨hnone, hne⟩, hb',
      fun budget next' hinner ht' hnext' =>
        outputMember_skipped hne (hkey.member hinner (hread ht' hnext'))⟩

/-- And so do the members behind another one. -/
theorem moreOutputMembers_reads (hP : ∀ t t', P t t' → AbiText t t') {ks : List String} {u u' : List Char}
    (h : MoreMembersText (OutputMember P keys) ks u u')
    (hrel : Option.Rel (ContractsRel keys) found found') {b rest after : List Char} (hb : AreBlanks b)
    (hr : moreOutputMembers (maxDepth - 2) n found (b ++ (u ++ '\x7d' :: rest)) = .ok (result, after)) :
    after = rest ∧ (result = none → found = none ∧ contractsField ∉ ks) ∧
      ∃ result', Option.Rel (ContractsRel keys) result result' ∧
        ∀ ⦃n' : Nat⦄ ⦃b' rest' : List Char⦄, u'.length < n' → AreBlanks b' →
          moreOutputMembers (maxDepth - 2) n' found' (b' ++ (u' ++ '\x7d' :: rest')) =
            .ok (result', rest') := by
  induction h generalizing n b found found' with
  | nil =>
    cases n with
    | zero => cases hr
    | succ n =>
      rw [List.nil_append, moreOutputMembers_close (skipBlanks_open hb rfl rest)] at hr
      cases hr
      refine ⟨rfl, fun hnone => ⟨hnone, List.not_mem_nil⟩, found', hrel, fun n' b' rest' hn' hb' => ?_⟩
      obtain ⟨n', rfl⟩ : ∃ k, n' = k + 1 := ⟨n' - 1, by omega⟩
      exact moreOutputMembers_close (skipBlanks_open hb' rfl rest')
  | cons hkey hvalue hrest ih =>
    rename_i k ks key t t' u u'
    obtain ⟨inner, bk, hread⟩ := hkey.exists_readsKey
    simp only [List.cons_append, List.append_assoc] at hr ⊢
    cases n with
    | zero => cases hr
    | succ n =>
      rcases moreOutputMembers_cases hr with ⟨hskip, _⟩ |
        ⟨_, quoted, mid, behind, hskip, hquote, hmid, hr⟩
      · rw [skipBlanks_open hb rfl] at hskip
        cases hskip
      rw [skipBlanks_open hb rfl] at hskip
      cases hskip
      rw [hread.opens] at hquote
      cases hquote
      obtain ⟨b₁, mid', b₂, hb₁, rfl, hrel', hfirst, hb₂, hmid'⟩ :=
        outputMember_reads hP hread hvalue hrel (hrest.closes rest).1 hmid
      obtain ⟨rfl, hnone, result', hresult, hmore⟩ := ih hrel' hb₁ hr
      refine ⟨rfl, fun hresult => ?_, result', hresult, fun n' b' rest' hn' hb' => ?_⟩
      · obtain ⟨hfound, hks⟩ := hnone hresult
        obtain ⟨hfound, hk⟩ := hfirst hfound
        exact ⟨hfound, fun hmem => (List.mem_cons.mp hmem).elim (fun heq => hk heq.symm) hks⟩
      · have hlength := hread.length
        simp only [List.length_cons, List.length_append] at hn'
        obtain ⟨n', rfl⟩ : ∃ k, n' = k + 1 := ⟨n' - 1, by omega⟩
        have hstep := hmid' (by omega : inner.length < n' + 1) (by omega : t'.length < n' + 1)
          (hrest.closes rest').2
        have hmore' : moreOutputMembers (maxDepth - 2) n' mid' (b₂ ++ (u' ++ '\x7d' :: rest')) =
            .ok (result', rest') := hmore (by omega) hb₂
        exact moreOutputMembers_comma (skipBlanks_open hb' rfl _) (hread.opens _) hstep hmore'

/-- What is related of two outputs. -/
def OutputRel (keys : List String) (found found' : Option Fields) : Prop :=
  ContractsRel keys (found.getD []) (found'.getD [])

theorem contractsRel_nil : ContractsRel [] [] [] := ⟨rfl, .nil⟩

theorem outputRel_of_rel (h : Option.Rel (ContractsRel keys) found found')
    (hnone : found = none → keys = []) : OutputRel keys found found' := by
  cases h with
  | some h => exact h
  | none => exact hnone rfl ▸ contractsRel_nil

theorem output_of_object {cs rest : List Char} (h : skipBlanks cs = '\x7b' :: rest) (n : Nat) :
    output n cs = outputMembers n (maxDepth - 2) rest := by
  simp only [output, h]

theorem output_of_array {cs rest : List Char} (h : skipBlanks cs = '[' :: rest) (n : Nat) :
    output n cs = outputElements n (maxDepth - 2) rest := by
  simp only [output, h]

/-- Behind its bracket, an array that holds contracts is read as they are. -/
theorem outputElements_contracts {cs rest rest' : List Char} {depth : Nat} {fields : Fields}
    (hopen : ∃ inside, skipBlanks cs = '\x7b' :: inside) (h : contractMap n depth cs = .ok (fields, rest))
    (hend : skipBlanks rest = ']' :: rest') : outputElements n depth cs = .ok (some fields, rest') := by
  obtain ⟨inside, hinside⟩ := hopen
  rw [← contractMap_skipBlanks, hinside] at h
  unfold outputElements
  rw [hinside]
  exact bind_eq_ok.mpr ⟨_, h, bind_eq_ok.mpr ⟨_, endOfElements_eq_ok_iff.mpr hend, rfl⟩⟩

theorem ObjectText.reads_output (hP : ∀ t t', P t t' → AbiText t t') {outer : List String} {t t' : List Char}
    (h : ObjectText (OutputMember P keys) outer t t') (hkeys : contractsField ∉ outer → keys = []) :
    Reads output (OutputRel keys) t t' := by
  cases h with
  | empty ha hb hc =>
    have hnil : OutputRel keys none none := hkeys List.not_mem_nil ▸ contractsRel_nil
    refine reads_of_forall hc hnil fun n next => ?_
    simp only [List.append_assoc, List.cons_append]
    rw [output_of_object (skipBlanks_open ha rfl _), outputMembers, skipBlanks_open hb rfl]
    rfl
  | members ha hc hkey hvalue hrest =>
    rename_i k ks a c key t t' u u'
    obtain ⟨inner, bk, hread⟩ := hkey.exists_readsKey
    intro n next found after hnext hr
    simp only [List.append_assoc, List.cons_append] at hr
    rw [output_of_object (skipBlanks_open ha rfl _)] at hr
    rcases outputMembers_cases hr with ⟨hskip, _⟩ | ⟨quoted, mid, behind, hquote, hmid, hr⟩
    · rw [hread.opens] at hskip
      cases hskip
    rw [hread.opens] at hquote
    cases hquote
    obtain ⟨b₁, mid', b₂, hb₁, rfl, hrel, hfirst, hb₂, hmid'⟩ :=
      outputMember_reads hP hread hvalue .none (hrest.closes (c ++ next)).1 hmid
    obtain ⟨rfl, hnone, found', hfound, hmore⟩ := moreOutputMembers_reads hP hrest hrel hb₁ hr
    refine ⟨c, found', c, hc, rfl, outputRel_of_rel hfound fun hfound => hkeys fun hmem => ?_, hc,
      fun budget next' hbudget _ => ?_⟩
    · obtain ⟨hmid, hks⟩ := hnone hfound
      exact (List.mem_cons.mp hmem).elim (fun heq => (hfirst hmid).2 heq.symm) hks
    · have hlength := hread.length
      simp only [List.length_cons, List.length_append] at hbudget
      have hstep := hmid' (by omega : inner.length < budget) (by omega : t'.length < budget)
        (hrest.closes (c ++ next')).2
      have hmore' : moreOutputMembers (maxDepth - 2) budget mid' (b₂ ++ (u' ++ '\x7d' :: (c ++ next'))) =
          .ok (found', c ++ next') := hmore (by omega) hb₂
      simp only [List.append_assoc, List.cons_append]
      rw [output_of_object (skipBlanks_open ha rfl _)]
      exact outputMembers_cons (hread.opens _) hstep hmore'

theorem ContractsText.reads_output (hP : ∀ t t', P t t' → AbiText t t') {a c t t' : List Char}
    (ha : AreBlanks a) (hc : AreBlanks c) (h : ContractsText P keys t t') :
    Reads output (OutputRel keys) (a ++ '[' :: (t ++ ']' :: c)) (a ++ '[' :: (t' ++ ']' :: c)) := by
  intro n next found after hnext hr
  have hclose : ∀ cs, Closes (']' :: cs) := closes_cons (by simp)
  simp only [List.append_assoc, List.cons_append] at hr
  rw [output_of_array (skipBlanks_open ha rfl _)] at hr
  rcases outputElements_cases hr with ⟨hskip, _⟩ | ⟨fields, mid, hfields, hend, rfl⟩
  · obtain ⟨inside, hinside⟩ := (ObjectText.opens h).1 (']' :: (c ++ next))
    rw [hinside] at hskip
    cases hskip
  obtain ⟨b, fields', b', hb, rfl, hV, hb', hread⟩ :=
    h.reads hP (by decide : 124 + 1 ≤ maxDepth) (hclose _) hfields
  rw [skipBlanks_open hb rfl] at hend
  cases hend
  refine ⟨c, some fields', c, hc, rfl, hV, hc, fun budget next' hbudget _ => ?_⟩
  simp only [List.length_append, List.length_cons] at hbudget
  simp only [List.append_assoc, List.cons_append]
  rw [output_of_array (skipBlanks_open ha rfl _)]
  exact outputElements_contracts ((ObjectText.opens h).2 _) (hread (by omega) (hclose _))
    (skipBlanks_open hb' rfl _)

/-- **The contracts in two outputs are related.** -/
theorem OutputText.reads (hP : ∀ t t', P t t' → AbiText t t') {t t' : List Char}
    (h : OutputText P keys t t') : Reads output (OutputRel keys) t t' := by
  cases h with
  | object h hkeys => exact ObjectText.reads_output hP h hkeys
  | empty ha hb hc =>
    have hnil : OutputRel [] none none := contractsRel_nil
    refine reads_of_forall hc hnil fun n next => ?_
    simp only [List.append_assoc, List.cons_append]
    rw [output_of_array (skipBlanks_open ha rfl _), outputElements, skipBlanks_open hb rfl]
    rfl
  | array ha hc h => exact h.reads_output hP ha hc

end Reads

/-! ## Outputs that are read -/

section Covered

variable {P : List Char → List Char → Prop}

theorem covers_skip : Covers Skip.value fun t _ => IsSkippable t := by
  intro n cs b next x hb hnext hx
  obtain ⟨t, hcs, c, hc, ht⟩ := covers_of_isLocal Skip.isLocal_value hb hnext hx
  exact ⟨t, hcs, isSkippable_iff.mpr ⟨c, hc, ht⟩⟩

/-- What a member with this key finds, if its value holds contracts under these keys: there are contracts
only in the member that holds them, and only if there were none before. -/
def Finds (k : String) (keys : List String) (found result : Option Fields) : Prop :=
  (k = contractsField ∧ found = none ∧ result ≠ none) ∨ (k ≠ contractsField ∧ keys = [] ∧ result = found)

/-- One step: a member is read from its key and a text of its value. -/
theorem exists_outputMember (hP : ∀ t v, Spells t v → ∃ t', P t t') {n : Nat} {cs quoted b next : List Char}
    {found result : Option Fields} (hquote : skipBlanks cs = '"' :: quoted) (hb : AreBlanks b)
    (hnext : Closes next) (h : outputMember n (maxDepth - 2) found quoted = .ok (result, b ++ next)) :
    ∃ k keys key t t', cs = key ++ ':' :: (t ++ next) ∧ Spells key (.string k) ∧
      OutputMember P keys k t t' ∧ Finds k keys found result := by
  rcases outputMember_cases h with ⟨rfl, fields, hm, rfl⟩ | ⟨rfl, k, hk, hm⟩
  · obtain ⟨key, y, rfl, hkey, hfields⟩ := exists_key hquote hm
    obtain ⟨t, rfl, keys, t', ht⟩ := covers_contractMap hP (by decide : 124 + 1 ≤ maxDepth) hb hnext hfields
    exact ⟨contractsField, keys, key, t, t', rfl, hkey, by rwa [OutputMember, if_pos rfl],
      .inl ⟨rfl, rfl, nofun⟩⟩
  · obtain ⟨key, y, rfl, hkey, hskip⟩ := exists_key hquote hm
    obtain ⟨t, rfl, ht⟩ := covers_skip hb hnext hskip
    exact ⟨k, [], key, t, t, rfl, hkey, by rw [OutputMember, if_neg hk]; exact ⟨rfl, ht⟩,
      .inr ⟨hk, rfl, rfl⟩⟩

/-- The keys do not matter for a member that is passed over. -/
theorem OutputMember.of_ne {keys keys' : List String} {k : String} {t t' : List Char}
    (hk : k ≠ contractsField) (h : OutputMember P keys k t t') : OutputMember P keys' k t t' := by
  rw [OutputMember, if_neg hk] at h ⊢
  exact h

/-- A member before others, of which at most one holds the contracts. -/
theorem exists_keys_cons {k : String} {ks keys keys' : List String} {t t' u u' : List Char}
    {found mid : Option Fields} (h : OutputMember P keys k t t') (hfinds : Finds k keys found mid)
    (hrest : MoreMembersText (OutputMember P keys') ks u u') (hmid : mid ≠ none → contractsField ∉ ks)
    (hkeys : contractsField ∉ ks → keys' = []) :
    ∃ keys, OutputMember P keys k t t' ∧ MoreMembersText (OutputMember P keys) ks u u' ∧
      (found ≠ none → contractsField ∉ k :: ks) ∧ (contractsField ∉ k :: ks → keys = []) := by
  rcases hfinds with ⟨hk, hfound, hsome⟩ | ⟨hk, _, rfl⟩
  · -- the members behind it are passed over
    have hrest' : MoreMembersText (OutputMember P keys) ks u u' :=
      hrest.mono fun k' hk' _ _ => OutputMember.of_ne fun heq => hmid hsome (heq ▸ hk')
    exact ⟨keys, h, hrest', fun hne => absurd hfound hne, fun hmem => absurd (hk ▸ List.mem_cons_self) hmem⟩
  · refine ⟨keys', h.of_ne hk, hrest, fun hne hmem => ?_,
      fun hmem => hkeys (List.not_mem_of_not_mem_cons hmem)⟩
    exact (List.mem_cons.mp hmem).elim (fun heq => hk heq.symm) (hmid hne)

/-- The members behind another one are read from texts of members. -/
theorem exists_moreOutputMembers (hP : ∀ t v, Spells t v → ∃ t', P t t') {n : Nat} {cs after : List Char}
    {found result : Option Fields} (h : moreOutputMembers (maxDepth - 2) n found cs = .ok (result, after)) :
    ∃ b u u' ks keys, AreBlanks b ∧ cs = b ++ (u ++ '\x7d' :: after) ∧
      MoreMembersText (OutputMember P keys) ks u u' ∧ (found ≠ none → contractsField ∉ ks) ∧
      (contractsField ∉ ks → keys = []) := by
  induction n generalizing cs found with
  | zero => cases h
  | succ n ih =>
    obtain ⟨b, hcs, hb⟩ := skipBlanks_cases cs
    rcases moreOutputMembers_cases h with ⟨hskip, rfl⟩ |
      ⟨_, quoted, mid, last, hskip, hquote, hmember, h⟩
    · exact ⟨b, [], [], [], [], hb, hskip ▸ hcs, .nil, fun _ => List.not_mem_nil, fun _ => rfl⟩
    · obtain ⟨b₁, u, u', ks, keys', hb₁, rfl, hu, hmid, hkeys⟩ := ih h
      obtain ⟨k, keys, key, t, t', rfl, hkey, ht, hfinds⟩ :=
        exists_outputMember hP hquote hb₁ (hu.closes after).1 hmember
      obtain ⟨keys, ht, hu, hfound, hkeys⟩ := exists_keys_cons ht hfinds hu hmid hkeys
      refine ⟨b, _, _, k :: ks, keys, hb, ?_, .cons hkey ht hu, hfound, hkeys⟩
      rw [hcs, hskip]
      simp

/-- An output that is an array, behind its bracket. -/
theorem exists_outputElements (hP : ∀ t v, Spells t v → ∃ t', P t t') {n : Nat} {a c inside next : List Char}
    {found : Option Fields} (ha : AreBlanks a) (hc : AreBlanks c)
    (h : outputElements n (maxDepth - 2) inside = .ok (found, c ++ next)) :
    ∃ t, inside = t ++ next ∧ ∃ keys t', OutputText P keys (a ++ '[' :: t) t' := by
  obtain ⟨b, hinside, hb⟩ := skipBlanks_cases inside
  rcases outputElements_cases h with ⟨hclose, rfl⟩ | ⟨fields, mid, hfields, hlast, rfl⟩
  · rw [hclose] at hinside
    exact ⟨b ++ ']' :: c, by rw [hinside]; simp, [], _, .empty ha hb hc⟩
  · obtain ⟨b₁, hmid, hb₁⟩ := skipBlanks_cases mid
    rw [hlast] at hmid
    rw [hmid] at hfields
    obtain ⟨t, rfl, keys, t', ht⟩ :=
      covers_contractMap hP (by decide : 124 + 1 ≤ maxDepth) hb₁ (closes_cons (by simp) _) hfields
    exact ⟨t ++ ']' :: c, by simp, keys, _, .array ha hc ht⟩

/-- An output that is an object, behind its brace. -/
theorem exists_outputMembers (hP : ∀ t v, Spells t v → ∃ t', P t t') {n : Nat} {a c inside next : List Char}
    {found : Option Fields} (ha : AreBlanks a) (hc : AreBlanks c)
    (h : outputMembers n (maxDepth - 2) inside = .ok (found, c ++ next)) :
    ∃ t, inside = t ++ next ∧ ∃ keys t', OutputText P keys (a ++ '\x7b' :: t) t' := by
  obtain ⟨b, hinside, hb⟩ := skipBlanks_cases inside
  rcases outputMembers_cases h with ⟨hclose, rfl⟩ | ⟨quoted, mid, last, hquote, hmember, h⟩
  · rw [hclose] at hinside
    exact ⟨b ++ '\x7d' :: c, by rw [hinside]; simp, [], _, .object (.empty ha hb hc) fun _ => rfl⟩
  · obtain ⟨b₁, u, u', ks, keys', hb₁, rfl, hu, hmid, hkeys⟩ := exists_moreOutputMembers hP h
    obtain ⟨k, keys, key, t, t', rfl, hkey, ht, hfinds⟩ :=
      exists_outputMember hP hquote hb₁ (hu.closes _).1 hmember
    obtain ⟨keys, ht, hu, _, hkeys⟩ := exists_keys_cons ht hfinds hu hmid hkeys
    exact ⟨key ++ ':' :: (t ++ (u ++ '\x7d' :: c)), by simp, keys, _,
      .object (.members ha hc hkey ht hu) hkeys⟩

/-- **Every output that is read is a text of an output**, if something may be written for every ABI. -/
theorem covers_output (hP : ∀ t v, Spells t v → ∃ t', P t t') :
    Covers output fun t _ => ∃ keys t', OutputText P keys t t' := by
  intro n cs c next found hc hnext h
  obtain ⟨a, hcs, ha⟩ := skipBlanks_cases cs
  unfold output at h
  split at h
  · cases h
  · rename_i hskip
    obtain ⟨t, rfl, htext⟩ := exists_outputElements hP ha hc h
    exact ⟨_, by rw [hcs, hskip]; simp, htext⟩
  · rename_i hskip
    obtain ⟨t, rfl, htext⟩ := exists_outputMembers hP ha hc h
    exact ⟨_, by rw [hcs, hskip]; simp, htext⟩
  · cases h

end Covered

/-! ## Contracts -/

/-- The key of a contract is its source and its name, with a colon between them, or its name alone. -/
def IsNamed (key : String) (c : CompiledContract) : Prop :=
  if ':' ∈ key.toList then key = c.source ++ ":" ++ c.name ∧ ':' ∉ c.name.toList
  else c.source = "" ∧ c.name = key

theorem splitKey_of_not_mem {key : String} (h : ':' ∉ key.toList) : splitKey key = ("", key) := by
  have hdrop : key.toList.reverse.dropWhile (· != ':') = [] := by
    rw [List.dropWhile_eq_nil_iff]
    intro c hc
    exact bne_iff_ne.mpr fun heq => h (heq ▸ List.mem_reverse.mp hc)
  simp only [splitKey, hdrop]

/-- A key is split at its last colon. -/
theorem splitKey_append {source name : List Char} (h : ':' ∉ name) :
    splitKey (String.ofList (source ++ ':' :: name)) = (String.ofList source, String.ofList name) := by
  have hreverse : (source ++ ':' :: name).reverse = name.reverse ++ ':' :: source.reverse := by simp
  have hname : ∀ c ∈ name.reverse, (c != ':') = true := fun c hc =>
    bne_iff_ne.mpr fun heq => h (heq ▸ List.mem_reverse.mp hc)
  have hdrop : (name.reverse ++ ':' :: source.reverse).dropWhile (· != ':') = ':' :: source.reverse := by
    rw [List.dropWhile_append_of_pos hname]
    rfl
  have htake : (name.reverse ++ ':' :: source.reverse).takeWhile (· != ':') = name.reverse := by
    rw [List.takeWhile_append_of_pos hname]
    simp
  simp only [splitKey, String.toList_ofList, hreverse, hdrop, htake, List.reverse_reverse]

theorem isNamed_splitKey (key : String) (abi : List Json) (bytecode : String) :
    IsNamed key ⟨(splitKey key).2, (splitKey key).1, abi, bytecode⟩ := by
  unfold IsNamed
  split
  · rename_i hcolon
    obtain ⟨name, source, hkey, hname⟩ := List.eq_append_cons_of_mem (List.mem_reverse.mpr hcolon)
    have hsplit : key.toList = source.reverse ++ ':' :: name.reverse := by
      rw [← List.reverse_reverse key.toList, hkey]
      simp
    have hname' : ':' ∉ name.reverse := fun hmem => hname (List.mem_reverse.mp hmem)
    have hof : key = String.ofList (source.reverse ++ ':' :: name.reverse) := by
      rw [← hsplit, String.ofList_toList]
    have hread : splitKey key = (String.ofList source.reverse, String.ofList name.reverse) :=
      hof ▸ splitKey_append hname'
    rw [hread]
    refine ⟨String.toList_injective ?_, by rwa [String.toList_ofList]⟩
    simp [hsplit]
  · rename_i hcolon
    rw [splitKey_of_not_mem hcolon]
    exact ⟨rfl, rfl⟩

theorem isNamed_of_contractOfField {key : String} {v : Json} {c : CompiledContract}
    (h : contractOfField key v = .ok c) : IsNamed key c := by
  unfold contractOfField at h
  split at h
  · cases h
  split at h
  · cases h
  · cases h
    exact isNamed_splitKey key _ _

/-- Contracts that are related are the same, and named by their keys. -/
theorem mapM_contractOfField {fields fields' : Fields} (h : FieldsRel (fun _ => ContractRel) fields fields')
    {contracts : List CompiledContract}
    (hr : fields.mapM (fun (key, value) => contractOfField key value) = .ok contracts) :
    fields'.mapM (fun (key, value) => contractOfField key value) = .ok contracts ∧
      List.Forall₂ IsNamed (fields.map Prod.fst) contracts := by
  induction h generalizing contracts with
  | nil =>
    cases hr
    exact ⟨rfl, .nil⟩
  | @cons m m' fields fields' hm _ ih =>
    obtain ⟨k, v⟩ := m
    obtain ⟨k', v'⟩ := m'
    obtain ⟨rfl, hv⟩ := hm
    rw [List.mapM_cons] at hr ⊢
    obtain ⟨c, hc, hr⟩ := bind_eq_ok.mp hr
    obtain ⟨cs, hcs, hr⟩ := bind_eq_ok.mp hr
    cases hr
    obtain ⟨hread, hnamed⟩ := ih hcs
    exact ⟨bind_eq_ok.mpr ⟨c, hv.contractOfField hc, bind_eq_ok.mpr ⟨cs, hread, rfl⟩⟩,
      .cons (isNamed_of_contractOfField hc) hnamed⟩

/-- **The ABIs may be arrays or texts.**  Whatever is written for the ABIs of an output that is read, arrays
or texts that hold them, the same contracts are read: one for each key, in the order in which the keys first
occur. -/
theorem contractsOf_repacked {stdout : String} {contracts : List CompiledContract}
    (h : contractsOf stdout = .ok contracts) (P : List Char → List Char → Prop)
    (hP : ∀ t t', P t t' → AbiText t t') (htotal : ∀ t v, Spells t v → ∃ t', P t t') :
    (∃ keys stdout', Repacks P keys stdout stdout') ∧ ∀ keys stdout', Repacks P keys stdout stdout' →
      contractsOf stdout' = .ok contracts ∧ List.Forall₂ IsNamed keys.eraseDups contracts := by
  obtain ⟨found, hfound, hcontracts⟩ := bind_eq_ok.mp h
  obtain ⟨b, hb, hread⟩ := run_eq_ok_iff.mp hfound
  constructor
  · rw [← List.append_nil b] at hread
    obtain ⟨t, ht, keys, t', houtput⟩ := covers_output htotal hb closes_nil hread
    rw [List.append_nil] at ht
    subst ht
    exact ⟨keys, String.ofList t', by rwa [Repacks, String.toList_ofList]⟩
  · intro keys stdout' hrepacks
    rw [← List.append_nil stdout.toList] at hread
    obtain ⟨_, found', b', _, _, hrel, hb', hread'⟩ := OutputText.reads hP hrepacks closes_nil hread
    have hlength : stdout'.toList.length < stdout'.length + 1 := by
      rw [String.length_toList]
      exact Nat.lt_succ_self _
    have hout := hread' hlength closes_nil
    rw [List.append_nil, List.append_nil] at hout
    obtain ⟨hmapM, hnamed⟩ := mapM_contractOfField hrel.values hcontracts
    rw [hrel.keys] at hnamed
    exact ⟨bind_eq_ok.mpr ⟨found', run_eq_ok_iff.mpr ⟨b', hb', hout⟩, hmapM⟩, hnamed⟩

/-- Two contracts: the ABI of the first one is given, and the second one has an empty one. -/
def contractsOfTwo (abi : Json) : Json :=
  .object [("a.sol:T", .object [("abi", abi)]), ("U", .object [("abi", .array [])])]

def twoContracts (abi : Json) : Json :=
  .object [(contractsField, contractsOfTwo abi)]

def fallbackAbi : List Json := [.object [("type", .string "fallback")]]

theorem contractsOf_twoContracts : contractsOf (compact (twoContracts (.array fallbackAbi))) =
    .ok [⟨"T", "a.sol", fallbackAbi, "0x"⟩, ⟨"U", "", [], "0x"⟩] := by cbv

theorem repacks_twoContracts : Repacks AbiText ["a.sol:T", "U"] (compact (twoContracts (.array fallbackAbi)))
    (compact (twoContracts (.string (compact (.array fallbackAbi))))) := by
  have habi : AbiText (chars .compact (.array fallbackAbi)) (stringText (compact (.array fallbackAbi))) := by
    refine abiText_stringText (by cbv) ?_
    simp only [fallbackAbi, Json.everywhere_array_iff, Json.everywhere_object_iff, List.forall_mem_cons,
      List.not_mem_nil, false_imp_iff, implies_true, and_true]
    exact ⟨id, id, Json.everywhere_scalar (by simp) (by simp) id⟩
  have hcontract : ∀ v v' : Json, AbiText (chars .compact v) (chars .compact v') →
      ContractText AbiText (chars .compact (.object [("abi", v)])) (chars .compact (.object [("abi", v')])) :=
    fun _ _ h => .object (.members areBlanks_nil areBlanks_nil (spells_stringText "abi") h .nil)
  have hempty : Spells (chars .compact (.array [])) (.array []) := by cbv
  have hsecond := MoreMembersText.cons (R := fun _ => ContractText AbiText) (spells_stringText "U")
    (hcontract _ _ (.same hempty)) .nil
  have hcontracts : ContractsText AbiText ["a.sol:T", "U"]
      (chars .compact (contractsOfTwo (.array fallbackAbi)))
      (chars .compact (contractsOfTwo (.string (compact (.array fallbackAbi))))) :=
    .members areBlanks_nil areBlanks_nil (spells_stringText "a.sol:T") (hcontract _ _ habi) hsecond
  have houtput : ObjectText (OutputMember AbiText ["a.sol:T", "U"]) [contractsField]
      (chars .compact (twoContracts (.array fallbackAbi)))
      (chars .compact (twoContracts (.string (compact (.array fallbackAbi))))) :=
    .members areBlanks_nil areBlanks_nil (spells_stringText contractsField) hcontracts .nil
  rw [Repacks, compact, compact, String.toList_ofList, String.toList_ofList]
  exact .object houtput fun h => absurd List.mem_cons_self h

/-- The sample: the ABI of the first of two contracts is put into a text. -/
theorem contractsOf_repacked_twoContracts :
    contractsOf (compact (twoContracts (.string (compact (.array fallbackAbi))))) =
        .ok [⟨"T", "a.sol", fallbackAbi, "0x"⟩, ⟨"U", "", [], "0x"⟩] ∧
      List.Forall₂ IsNamed ["a.sol:T", "U"].eraseDups
        [⟨"T", "a.sol", fallbackAbi, "0x"⟩, ⟨"U", "", [], "0x"⟩] :=
  (contractsOf_repacked contractsOf_twoContracts AbiText (fun _ _ h => h) fun _ _ h => ⟨_, .same h⟩).2 _ _
    repacks_twoContracts

end ContractBindings.Compiler
