import Mathlib
import ContractBindings.Compiler.Output
import ContractBindings.Proofs.Json.Readers

/-!
# Contracts read from output

The ABIs of the contracts in the output of a compiler are regular everywhere, whether they stand in the
output or in a text in it.

* `outputMember_cases`, `moreOutputMembers_cases`, `outputMembers_cases`, `outputElements_cases`: all that
  the readers of the outermost value may have read in one step;
* `yields_output`: the fields that hold the contracts are regular;
* `regular_of_contractsOf`: so are the ABIs;
* `ofText_artifact`: and an artifact that is made of a contract is read as the document of its ABI, if that
  does not nest too deep and holds no binary64 number.
-/

set_option autoImplicit false

namespace ContractBindings.Compiler

open Json Json.Reader

/-! ## Steps -/

section Steps

variable {n depth : Nat} {cs rest : List Char} {found result : Option Fields}

/-- A member of the outermost object holds the contracts, or is passed over. -/
theorem outputMember_cases (h : outputMember n depth found cs = .ok (result, rest)) :
    (found = none ∧ ∃ fields, member (contractMap n depth) n cs = .ok ((contractsField, fields), rest) ∧
      result = some fields) ∨
    (result = found ∧ ∃ k, k ≠ contractsField ∧ member (Skip.value n) n cs = .ok ((k, ()), rest)) := by
  obtain ⟨⟨k, behind⟩, hk, h⟩ := bind_eq_ok.mp h
  by_cases hkey : k = contractsField
  · cases found with
    | some fields => simp only [hkey, if_true] at h; cases h
    | none =>
      simp only [hkey, if_true] at h
      obtain ⟨⟨_, y⟩, hcolon, h⟩ := bind_eq_ok.mp h
      obtain ⟨⟨fields, after⟩, hfields, h⟩ := bind_eq_ok.mp h
      cases h
      refine Or.inl ⟨rfl, fields, ?_, rfl⟩
      simp only [member, hk, hcolon, hfields, hkey, bind, Except.bind]
  · simp only [hkey, if_false] at h
    obtain ⟨⟨_, y⟩, hcolon, h⟩ := bind_eq_ok.mp h
    obtain ⟨⟨_, after⟩, hskip, h⟩ := bind_eq_ok.mp h
    cases h
    refine Or.inr ⟨rfl, k, hkey, ?_⟩
    simp only [member, hk, hcolon, hskip, bind, Except.bind]

/-- Behind a member the object ends, or a comma and another member come before those behind it. -/
theorem moreOutputMembers_cases (h : moreOutputMembers depth (n + 1) found cs = .ok (result, rest)) :
    (skipBlanks cs = '\x7d' :: rest ∧ result = found) ∨
      ∃ behind quoted mid next, skipBlanks cs = ',' :: behind ∧ skipBlanks behind = '"' :: quoted ∧
        outputMember (n + 1) depth found quoted = .ok (mid, next) ∧
        moreOutputMembers depth n mid next = .ok (result, rest) := by
  rw [moreOutputMembers] at h
  split at h
  · cases h
  · cases h
    exact Or.inl ⟨by assumption, rfl⟩
  · rename_i behind hcomma
    split at h
    · cases h
    · rename_i quoted hquote
      obtain ⟨⟨mid, next⟩, hmid, h⟩ := bind_eq_ok.mp h
      exact Or.inr ⟨behind, quoted, mid, next, hcomma, hquote, hmid, h⟩
    · cases h
    · cases h
  · cases h

theorem moreOutputMembers_close (h : skipBlanks cs = '\x7d' :: rest) :
    moreOutputMembers depth (n + 1) found cs = .ok (found, rest) := by
  simp only [moreOutputMembers, h]

theorem moreOutputMembers_comma {behind quoted next : List Char} {mid : Option Fields}
    (hcomma : skipBlanks cs = ',' :: behind) (hquote : skipBlanks behind = '"' :: quoted)
    (hmid : outputMember (n + 1) depth found quoted = .ok (mid, next))
    (hmore : moreOutputMembers depth n mid next = .ok (result, rest)) :
    moreOutputMembers depth (n + 1) found cs = .ok (result, rest) := by
  rw [moreOutputMembers, hcomma]
  simp only [hquote, hmid, hmore, bind, Except.bind]

/-- The outermost object ends at once, or holds a member before those behind it. -/
theorem outputMembers_cases (h : outputMembers n depth cs = .ok (result, rest)) :
    (skipBlanks cs = '\x7d' :: rest ∧ result = none) ∨
      ∃ quoted mid next, skipBlanks cs = '"' :: quoted ∧
        outputMember n depth none quoted = .ok (mid, next) ∧
        moreOutputMembers depth n mid next = .ok (result, rest) := by
  unfold outputMembers at h
  split at h
  · cases h
  · cases h
    exact Or.inl ⟨by assumption, rfl⟩
  · rename_i quoted hquote
    obtain ⟨⟨mid, next⟩, hmid, h⟩ := bind_eq_ok.mp h
    exact Or.inr ⟨quoted, mid, next, hquote, hmid, h⟩
  · cases h

theorem outputMembers_cons {quoted next : List Char} {mid : Option Fields}
    (hquote : skipBlanks cs = '"' :: quoted) (hmid : outputMember n depth none quoted = .ok (mid, next))
    (hmore : moreOutputMembers depth n mid next = .ok (result, rest)) :
    outputMembers n depth cs = .ok (result, rest) := by
  simp only [outputMembers, hquote, hmid, hmore, bind, Except.bind]

theorem contractMap_skipBlanks (n depth : Nat) (cs : List Char) :
    contractMap n depth (skipBlanks cs) = contractMap n depth cs := by
  have hskip : skipBlanks (skipBlanks cs) = skipBlanks cs := List.dropWhile_idempotent _ _
  simp only [contractMap, hskip]

/-- An array with one element goes on with its bracket alone. -/
theorem endOfElements_eq_ok_iff : endOfElements cs = .ok ((), rest) ↔ skipBlanks cs = ']' :: rest := by
  constructor
  · intro h
    unfold endOfElements at h
    split at h
    · cases h
    · cases h
      assumption
    · split at h <;> cases h
    · cases h
  · intro h
    simp only [endOfElements, h]

/-- The outermost array is empty, or holds the contracts alone. -/
theorem outputElements_cases (h : outputElements n depth cs = .ok (result, rest)) :
    (skipBlanks cs = ']' :: rest ∧ result = none) ∨
      ∃ fields next, contractMap n depth cs = .ok (fields, next) ∧ skipBlanks next = ']' :: rest ∧
        result = some fields := by
  unfold outputElements at h
  split at h
  · cases h
  · cases h
    exact Or.inl ⟨by assumption, rfl⟩
  · obtain ⟨⟨fields, next⟩, hfields, h⟩ := bind_eq_ok.mp h
    obtain ⟨⟨_, last⟩, hend, h⟩ := bind_eq_ok.mp h
    cases h
    rw [contractMap_skipBlanks] at hfields
    exact Or.inr ⟨fields, next, hfields, endOfElements_eq_ok_iff.mp hend, rfl⟩

end Steps

/-! ## The reader of the output -/

/-- The values of fields are regular everywhere. -/
def AreRegular (fields : Fields) : Prop := ∀ m ∈ fields, Everywhere IsRegular m.2

theorem yields_contractMap (budget depth : Nat) : (contractMap budget depth).Yields AreRegular := by
  intro cs fields rest hr
  unfold contractMap at hr
  split at hr
  · cases hr
  · obtain ⟨⟨ms, next⟩, hms, hr⟩ := bind_eq_ok.mp hr
    cases hr
    exact fun m hm => yields_members (yields_value budget depth) budget _ _ _ hms m
      (mem_of_fieldsOfMembers hm)
  · cases hr

/-- What is known of the contracts while the members of the outermost object are read. -/
def IsRegularOption (contracts : Option Fields) : Prop :=
  ∀ fields, contracts = some fields → AreRegular fields

theorem isRegularOption_none : IsRegularOption none := nofun

theorem IsRegularOption.some {fields : Fields} (h : AreRegular fields) : IsRegularOption (some fields) := by
  rintro _ ⟨⟩
  exact h

theorem yields_outputMember {budget depth : Nat} {contracts : Option Fields}
    (h : IsRegularOption contracts) : (outputMember budget depth contracts).Yields IsRegularOption := by
  intro cs found rest hr
  rcases outputMember_cases hr with ⟨_, fields, hm, rfl⟩ | ⟨rfl, _⟩
  · exact .some (yields_member (yields_contractMap budget depth) budget _ _ _ hm)
  · exact h

theorem yields_moreOutputMembers {depth : Nat} (budget : Nat) {contracts : Option Fields}
    (h : IsRegularOption contracts) :
    (moreOutputMembers depth budget contracts).Yields IsRegularOption := by
  induction budget generalizing contracts with
  | zero => intro cs found rest hr; cases hr
  | succ budget ih =>
    intro cs found rest hr
    rcases moreOutputMembers_cases hr with ⟨_, rfl⟩ | ⟨_, _, mid, next, _, _, hmid, hr⟩
    · exact h
    · exact ih (yields_outputMember h _ _ _ hmid) _ _ _ hr

theorem yields_outputMembers (budget depth : Nat) :
    (outputMembers budget depth).Yields IsRegularOption := by
  intro cs found rest hr
  rcases outputMembers_cases hr with ⟨_, rfl⟩ | ⟨_, mid, next, _, hmid, hr⟩
  · exact isRegularOption_none
  · exact yields_moreOutputMembers budget (yields_outputMember isRegularOption_none _ _ _ hmid) _ _ _ hr

theorem yields_outputElements (budget depth : Nat) :
    (outputElements budget depth).Yields IsRegularOption := by
  intro cs found rest hr
  rcases outputElements_cases hr with ⟨_, rfl⟩ | ⟨fields, next, hfields, _, rfl⟩
  · exact isRegularOption_none
  · exact .some (yields_contractMap _ _ _ _ _ hfields)

/-- **The contracts in the output are regular everywhere.** -/
theorem yields_output (budget : Nat) : (output budget).Yields IsRegularOption := by
  intro cs found rest hr
  unfold output at hr
  split at hr
  · cases hr
  · exact yields_outputElements _ _ _ _ _ hr
  · exact yields_outputMembers _ _ _ _ _ hr
  · cases hr

/-! ## Contracts -/

theorem lookup_of_contractOfMembers {fields : Fields} {abi : Json} {code : String}
    (hr : contractOfMembers fields = .ok (abi, code)) : fields.lookup "abi" = some abi := by
  unfold contractOfMembers at hr
  -- the code does not matter for what comes of the ABI
  cases hbin : fields.lookup "bin" with
  | none =>
    rw [hbin] at hr
    cases habi : fields.lookup "abi" <;> rw [habi] at hr <;> cases hr
    rfl
  | some v =>
    rw [hbin] at hr
    obtain ⟨_, _, hr⟩ := bind_eq_ok.mp hr
    cases habi : fields.lookup "abi" <;> rw [habi] at hr <;> cases hr
    rfl

/-- The ABI of a contract is part of the value of the contract. -/
theorem regular_of_contractOfJson {v abi : Json} {code : String} (h : Everywhere IsRegular v)
    (hr : contractOfJson v = .ok (abi, code)) : Everywhere IsRegular abi := by
  unfold contractOfJson at hr
  split at hr
  · rename_i fields
    obtain ⟨m, hm, rfl⟩ := mem_of_lookup (lookup_of_contractOfMembers hr)
    exact (everywhere_object_iff.mp h).2 m hm
  · cases hr
  · cases hr
    exact (everywhere_array_iff.mp h).2 _ (by simp)
  · obtain ⟨_, _, hr⟩ := bind_eq_ok.mp hr
    split at hr
    · cases hr
      exact (everywhere_array_iff.mp h).2 _ (by simp)
    · cases hr
  · cases hr

theorem yields_abiText (budget : Nat) :
    (abiText budget).Yields fun items => Everywhere IsRegular (.array items) := by
  intro cs items rest hr
  unfold abiText at hr
  split at hr
  · cases hr
  · exact everywhere_array_iff.mpr ⟨trivial, yields_elements (yields_value _ _) budget _ _ _ hr⟩
  · cases hr

theorem regular_of_abiOfJson {abi : Json} {items : List Json} (h : Everywhere IsRegular abi)
    (hr : abiOfJson abi = .ok items) : Everywhere IsRegular (.array items) := by
  unfold abiOfJson at hr
  split at hr
  · exact run_yields (yields_abiText _) hr
  · cases hr; exact h
  · cases hr

theorem regular_of_contractOfField {key : String} {v : Json} {c : CompiledContract}
    (h : Everywhere IsRegular v) (hr : contractOfField key v = .ok c) :
    Everywhere IsRegular (.array c.abi) := by
  unfold contractOfField at hr
  split at hr
  · cases hr
  · rename_i abi code habi
    split at hr
    · cases hr
    · rename_i items hitems
      cases hr
      exact regular_of_abiOfJson (regular_of_contractOfJson h habi) hitems

/-- **The ABIs of the contracts are regular everywhere.** -/
theorem regular_of_contractsOf {stdout : String} {contracts : List CompiledContract}
    (h : contractsOf stdout = .ok contracts) {c : CompiledContract} (hc : c ∈ contracts) :
    Everywhere IsRegular (.array c.abi) := by
  obtain ⟨fields, hfields, h⟩ := bind_eq_ok.mp h
  obtain ⟨m, hm, hread⟩ := exists_of_mem_mapM h hc
  have hregular := run_yields (yields_output _) hfields
  cases fields with
  | none => cases hm
  | some fields => exact regular_of_contractOfField (hregular fields rfl m hm) hread

/-! ## Artifacts -/

/-- How deep an ABI may nest in an artifact. -/
def maxAbiDepth : Nat := 126

theorem isExact_artifact {c : CompiledContract} (h : IsExact maxAbiDepth (.array c.abi)) :
    IsExact maxDepth c.artifact := by
  have hstring : ∀ s : String, IsExact maxAbiDepth (.string s) := fun s =>
    ⟨trivial, everywhere_scalar (by simp) (by simp) trivial, everywhere_scalar (by simp) (by simp) id⟩
  have hmember : ∀ m ∈ [("contractName", Json.string c.name), ("sourceName", .string c.source),
      (Abi.abiField, .array c.abi), ("bytecode", .string c.bytecode)], IsExact maxAbiDepth m.2 := by
    simp only [List.forall_mem_cons, List.not_mem_nil, false_imp_iff, implies_true, and_true]
    exact ⟨hstring _, hstring _, h, hstring _⟩
  refine ⟨fun m hm => (hmember m hm).fits, ?_, ?_⟩
  · have hkeys : ["contractName", "sourceName", Abi.abiField, "bytecode"].Nodup := by decide
    exact everywhere_object_iff.mpr ⟨hkeys, fun m hm => (hmember m hm).regular⟩
  · exact everywhere_object_iff.mpr ⟨id, fun m hm => (hmember m hm).notReal⟩

theorem isBlank_indent : ∀ x ∈ "  ".toList, isBlank x = true := by
  have htext : "  ".toList = [' ', ' '] := rfl
  simp [htext, isBlank]

/-- **An artifact is read as the document of its contract.** -/
theorem ofText_artifact {c : CompiledContract} (h : IsExact maxAbiDepth (.array c.abi)) :
    Abi.Document.ofText (pretty "  " c.artifact) = .ok ⟨c.abi⟩ := by
  have hdocument : Abi.Document.ofJson? c.artifact = some ⟨c.abi⟩ := rfl
  rw [Abi.Document.ofText, parse_pretty isBlank_indent (isExact_artifact h)]
  simp only [hdocument]

end ContractBindings.Compiler
