import Mathlib
import ContractBindings.Binding.Module

/-!
# Members and overloaded functions

What the contract type of a module declares when several functions have one name.

* `occurrences k names`: the names at their occurrence number `k`, counted from 0, in order; a name has one
  if it occurs more than `k` times (`mem_occurrences_iff`), and no two (`nodup_occurrences`);
* `names_members`, `eq_last_of_mem_members`: the members stand in the order of first occurrences, and each
  is the last function of its name (`BindsLast`);
* `overloaded_eq`: the overloaded names are the second occurrences;
* `render_members`: so the source of a module holds one comment and one line for each name.
-/

set_option autoImplicit false

namespace ContractBindings.Binding

open Text

/-! ## Occurrences -/

/-- The names at their occurrence number `k`, counted from 0, in order. -/
def occurrences (k : Nat) (names : List String) : List String :=
  (names.zipIdx.filter fun x => (names.take x.2).count x.1 = k).map Prod.fst

theorem occurrences_nil (k : Nat) : occurrences k [] = [] := rfl

/-- One more name is its occurrence with the number of those before it. -/
theorem occurrences_append_singleton (k : Nat) (names : List String) (n : String) :
    occurrences k (names ++ [n]) =
      occurrences k names ++ if names.count n = k then [n] else [] := by
  unfold occurrences
  rw [List.zipIdx_append, List.filter_append, List.map_append]
  congr 1
  · refine congrArg _ (List.filter_congr fun x hx => ?_)
    have hlt := List.snd_lt_of_mem_zipIdx hx
    rw [List.take_append_of_le_length (by simp at hlt; omega)]
  · by_cases h : names.count n = k <;> simp [h]

theorem mem_occurrences_iff {k : Nat} {names : List String} {n : String} :
    n ∈ occurrences k names ↔ k < names.count n := by
  induction names using List.reverseRecOn with
  | nil => simp [occurrences_nil]
  | append_singleton names m ih =>
    rw [occurrences_append_singleton, List.mem_append, ih, List.count_append]
    by_cases hm : m = n
    · subst hm
      by_cases hk : names.count m = k
      · simp [hk]
      · simp [hk]
        omega
    · have hempty : n ∉ (if names.count m = k then [m] else []) := by
        split <;> simp [Ne.symm hm]
      simp [hempty, hm]

theorem nodup_occurrences (k : Nat) (names : List String) : (occurrences k names).Nodup := by
  induction names using List.reverseRecOn with
  | nil => simp [occurrences_nil]
  | append_singleton names m ih =>
    rw [occurrences_append_singleton]
    split
    · rename_i h
      refine List.nodup_append.mpr ⟨ih, by simp, ?_⟩
      rintro a ha _ hb rfl
      rw [List.mem_singleton.mp hb, mem_occurrences_iff] at ha
      omega
    · simpa using ih

example : occurrences 1 ["f", "g", "f", "f", "g"] = ["f", "g"] := by decide

/-! ## Members -/

/-- One function for each name, the last one, in the order of first occurrences. -/
structure BindsLast (signatures bound : List Signature) : Prop where
  names : bound.map Signature.name = occurrences 0 (signatures.map Signature.name)
  mem_names_iff : ∀ n, n ∈ bound.map Signature.name ↔ n ∈ signatures.map Signature.name
  distinct : (bound.map Signature.name).Nodup
  last : ∀ s ∈ bound, (signatures.filter fun t => t.name = s.name).getLast? = some s

theorem members_append_singleton (signatures : List Signature) (s : Signature) :
    members (signatures ++ [s]) = replaceByName s (members signatures) := by
  simp [members]

theorem names_replaceByName (s : Signature) (bound : List Signature) :
    (replaceByName s bound).map Signature.name =
      bound.map Signature.name ++
        if s.name ∈ bound.map Signature.name then [] else [s.name] := by
  induction bound with
  | nil => simp [replaceByName]
  | cons t rest ih =>
    unfold replaceByName
    by_cases h : t.name = s.name
    · simp [h]
    · rw [if_neg h, List.map_cons, ih]
      simp [Ne.symm h]

/-- **The members stand in the order of the first occurrences of their names.** -/
theorem names_members (signatures : List Signature) :
    (members signatures).map Signature.name = occurrences 0 (signatures.map Signature.name) := by
  induction signatures using List.reverseRecOn with
  | nil => rfl
  | append_singleton signatures s ih =>
    rw [members_append_singleton, names_replaceByName, ih, List.map_append, List.map_singleton,
      occurrences_append_singleton]
    congr 1
    by_cases h : (signatures.map Signature.name).count s.name = 0
    · rw [if_pos h, if_neg (by rw [mem_occurrences_iff]; omega)]
    · rw [if_neg h, if_pos (mem_occurrences_iff.mpr (by omega))]

theorem mem_replaceByName {s t : Signature} {bound : List Signature}
    (hbound : (bound.map Signature.name).Nodup) (ht : t ∈ replaceByName s bound) :
    t = s ∨ t ∈ bound ∧ t.name ≠ s.name := by
  induction bound with
  | nil => exact Or.inl (List.mem_singleton.mp ht)
  | cons u rest ih =>
    obtain ⟨hu, hrest⟩ := List.nodup_cons.mp hbound
    unfold replaceByName at ht
    split at ht
    · rename_i h
      refine (List.mem_cons.mp ht).imp_right fun ht => ⟨List.mem_cons_of_mem _ ht, ?_⟩
      intro he
      exact hu (List.mem_map.mpr ⟨t, ht, he.trans h.symm⟩)
    · rename_i h
      rcases List.mem_cons.mp ht with rfl | ht
      · exact Or.inr ⟨by simp, h⟩
      · exact (ih hrest ht).imp_right fun ⟨hm, hne⟩ => ⟨List.mem_cons_of_mem _ hm, hne⟩

/-- **A member is the last function of its name.** -/
theorem eq_last_of_mem_members {signatures : List Signature} {t : Signature}
    (ht : t ∈ members signatures) :
    (signatures.filter fun s => s.name = t.name).getLast? = some t := by
  induction signatures using List.reverseRecOn with
  | nil => cases ht
  | append_singleton signatures s ih =>
    have hnodup : ((members signatures).map Signature.name).Nodup := by
      rw [names_members]; exact nodup_occurrences 0 _
    rw [members_append_singleton] at ht
    rw [List.filter_append]
    rcases mem_replaceByName hnodup ht with rfl | ⟨ht, hne⟩
    · simp
    · have hs : ([s].filter fun u => u.name = t.name) = [] := by simp [Ne.symm hne]
      rw [hs, List.append_nil]
      exact ih ht

theorem bindsLast_members (signatures : List Signature) :
    BindsLast signatures (members signatures) where
  names := names_members signatures
  mem_names_iff n := by rw [names_members, mem_occurrences_iff, List.count_pos_iff]
  distinct := by rw [names_members]; exact nodup_occurrences 0 _
  last _ hs := eq_last_of_mem_members hs

/-! ## Overloaded functions -/

/-- The names behind those in `done` keep the two lists in step with it. -/
theorem repeatedNames_eq (signatures : List Signature) (done seen repeated : List String)
    (hseen : ∀ n, n ∈ seen ↔ n ∈ done) (hrepeated : repeated = occurrences 1 done) :
    repeatedNames seen repeated signatures =
      occurrences 1 (done ++ signatures.map Signature.name) := by
  induction signatures generalizing done seen repeated with
  | nil => simpa [repeatedNames] using hrepeated
  | cons s rest ih =>
    have hcount : (seen.contains s.name ∧ ¬ repeated.contains s.name) ↔ done.count s.name = 1 := by
      rw [List.contains_iff_mem, List.contains_iff_mem, hseen, hrepeated, mem_occurrences_iff,
        ← List.count_pos_iff]
      omega
    have hstep := occurrences_append_singleton 1 done s.name
    have hassoc : done ++ s.name :: rest.map Signature.name =
        (done ++ [s.name]) ++ rest.map Signature.name := by simp
    rw [List.map_cons, hassoc]
    unfold repeatedNames
    by_cases h : done.count s.name = 1
    · rw [if_pos (hcount.mpr h)]
      refine ih _ _ _ (fun n => ?_) (by rw [hstep, if_pos h, hrepeated])
      have hs : s.name ∈ done := List.count_pos_iff.mp (by omega)
      rw [hseen, List.mem_append, List.mem_singleton]
      exact ⟨Or.inl, fun hn => hn.elim id fun he => he ▸ hs⟩
    · rw [if_neg fun hc => h (hcount.mp hc)]
      refine ih _ _ _ (fun n => ?_) (by rw [hstep, if_neg h, hrepeated, List.append_nil])
      rw [List.mem_cons, hseen, List.mem_append, List.mem_singleton, or_comm]

/-- **The overloaded names are the second occurrences.** -/
theorem overloaded_eq (signatures : List Signature) :
    overloaded signatures = occurrences 1 (signatures.map Signature.name) := by
  have := repeatedNames_eq signatures [] [] [] (by simp) (by simp [occurrences_nil])
  simpa [overloaded] using this

/-! ## The source -/

theorem allMemberLines_eq (bound : List Signature) :
    allMemberLines bound = String.join (bound.map fun s =>
      "\t" ++ memberComment s ++ "\n" ++ "\t" ++ member s ++ "\n") := by
  induction bound with
  | nil => rfl
  | cons s rest ih =>
    rw [allMemberLines, ih, List.map_cons, String.join_cons]
    simp only [memberLines, String.append_assoc]
    rfl

/-- The contract type spelled out, member by member. -/
theorem contractType_eq (contract : String) (bound : List Signature) :
    contractType contract bound =
      "export type " ++ contract ++ "_Contract = Contract & \x7b"
        ++ (if bound = [] then "" else "\n")
        ++ String.join (bound.map fun s =>
          "\t" ++ memberComment s ++ "\n" ++ "\t" ++ member s ++ "\n")
        ++ "\x7d\n" := by
  rw [← allMemberLines_eq]
  unfold contractType typeName
  cases bound with
  | nil => simp [allMemberLines, String.append_assoc]
  | cons s rest => simp [String.append_assoc]

/--
**A module binds each function name once**: the contract type holds one comment and one line for each
name, in the order of first occurrences and made from the last function of the name, and the overloaded
names are the second occurrences.
-/
theorem render_members (dialect : Dialect) (contract : String) (d : Abi.Document)
    (signatures : List Signature) :
    ∃ bound : List Signature,
      BindsLast signatures bound ∧
      (BindingModule.render dialect contract d signatures).source =
        banner contract ++ "\n" ++ importLine dialect bound ++ "\n"
          ++ abiConstant (sanitize contract) (abiLiteral d) ++ "\n"
          ++ ("export type " ++ sanitize contract ++ "_Contract = Contract & \x7b"
            ++ (if bound = [] then "" else "\n")
            ++ String.join (bound.map fun s =>
              "\t" ++ memberComment s ++ "\n" ++ "\t" ++ member s ++ "\n")
            ++ "\x7d\n")
          ++ "\n" ++ factory (sanitize contract) (parameterName dialect.runnerParameter 0) ∧
      (BindingModule.render dialect contract d signatures).overloaded =
        occurrences 1 (signatures.map Signature.name) ∧
      (∀ n, n ∈ (BindingModule.render dialect contract d signatures).overloaded ↔
        2 ≤ (signatures.map Signature.name).count n) ∧
      (BindingModule.render dialect contract d signatures).overloaded.Nodup := by
  have hover : (BindingModule.render dialect contract d signatures).overloaded =
      occurrences 1 (signatures.map Signature.name) := overloaded_eq signatures
  refine ⟨members signatures, bindsLast_members signatures, ?_, hover,
    fun n => by rw [hover, mem_occurrences_iff]; rfl, by rw [hover]; exact nodup_occurrences 1 _⟩
  show _ ++ contractType (sanitize contract) (members signatures) ++ _ ++ _ = _
  rw [contractType_eq]

end ContractBindings.Binding
