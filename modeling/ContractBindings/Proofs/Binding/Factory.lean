import ContractBindings.Proofs.Binding.Members
import ContractBindings.Proofs.Text.Identifier

/-!
# The scope of the factory

The factory of a module takes two parameters and hands them, with the constant that holds the ABI, to the
class that the module imports.  Inside of it a name stands for a parameter of that name, and for what the
module declares under it only if there is none.

* `text_factoryOf`: the factory of a module, taken apart (`Factory`);
* `isHygienic_iff`: its names stand for what they should exactly if the second parameter has none of the
  names that are taken;
* `parameterName_eq_iff_of_letters`, `parameterName_eq_abiName_iff`: which names of a dialect become one of
  these;
* `render_factory`: so the factory of a module is hygienic exactly if its dialect does not name the
  parameter like that, and `not_isHygienic_sample` gives dialects that do.
-/

set_option autoImplicit false

namespace ContractBindings.Binding

open Text

/-! ## Factories -/

/-- An exported function that hands names on to a constructor. -/
structure Factory where
  name : String
  /-- The parameters, each with its type. -/
  parameters : List (String × String)
  result : String
  constructed : String
  arguments : List String

namespace Factory

/-- How a factory is written. -/
def text (f : Factory) : String :=
  "export const " ++ f.name ++ " = ("
    ++ joined ", " (f.parameters.map fun p => p.1 ++ ": " ++ p.2) ++ "): " ++ f.result
    ++ " =>\n\tnew " ++ f.constructed ++ "(" ++ joined ", " f.arguments ++ ") as " ++ f.result ++ "\n"

/-- What a name stands for. -/
inductive Meaning where
  /-- A class that the module imports. -/
  | imported
  /-- The constant that holds the ABI. -/
  | constant
  /-- The factory itself. -/
  | factory
  | parameter (index : Nat)
  deriving DecidableEq, Repr

/-- The values that a module declares. -/
def moduleScope (identifier : String) : List (String × Meaning) :=
  [("Contract", .imported), (abiName identifier, .constant), (factoryName identifier, .factory)]

/-- The parameters of a factory. -/
def parameterScope (f : Factory) : List (String × Meaning) :=
  f.parameters.mapIdx fun index p => (p.1, .parameter index)

/-- What a name stands for inside a factory: parameters hide what the module declares. -/
def meaning? (f : Factory) (identifier name : String) : Option Meaning :=
  (f.parameterScope ++ moduleScope identifier).lookup name

/-- The parameters have different names, and the names in the body stand for the imported class, the first
parameter, the constant that holds the ABI and the second parameter. -/
structure IsHygienic (f : Factory) (identifier : String) : Prop where
  distinct : (f.parameters.map Prod.fst).Nodup
  constructed : f.constructed = "Contract" ∧ f.meaning? identifier "Contract" = some .imported
  arguments : f.arguments.map (f.meaning? identifier) =
    [some (.parameter 0), some .constant, some (.parameter 1)]

end Factory

/-- The factory of a module, for the identifier of its contract and the name of its second parameter. -/
def factoryOf (identifier runner : String) : Factory where
  name := factoryName identifier
  parameters := [("address", "string | Addressable"), (runner, runnerType)]
  result := typeName identifier
  constructed := "Contract"
  arguments := ["address", abiName identifier, runner]

/-- **The factory of a module, taken apart.** -/
theorem text_factoryOf (identifier runner : String) :
    (factoryOf identifier runner).text = factory identifier runner := by
  have hopen : " = (address: string | Addressable, " =
      " = (" ++ ("address" ++ (": " ++ ("string | Addressable" ++ ", "))) := by cbv
  have hbody : " =>\n\tnew Contract(address, " =
      " =>\n\tnew " ++ ("Contract" ++ ("(" ++ ("address" ++ ", "))) := by cbv
  have htwo (a b : String) : joined ", " [a, b] = a ++ ", " ++ b := rfl
  have hthree (a b c : String) : joined ", " [a, b, c] = a ++ ", " ++ (b ++ ", " ++ c) := rfl
  unfold factory Factory.text factoryOf
  rw [hopen, hbody]
  simp only [List.map_cons, List.map_nil, htwo, hthree, String.append_assoc]

/-! ## Scopes -/

variable {identifier runner name : String}

theorem underscore_mem_abiName (identifier : String) : '_' ∈ (abiName identifier).toList := by
  simp [abiName, String.toList_append]

theorem ne_abiName (h : '_' ∉ name.toList) : name ≠ abiName identifier := by
  rintro rfl
  exact h (underscore_mem_abiName identifier)

theorem meaning?_factoryOf (identifier runner name : String) :
    (factoryOf identifier runner).meaning? identifier name =
      if name = "address" then some (.parameter 0)
      else if name = runner then some (.parameter 1)
      else (Factory.moduleScope identifier).lookup name := by
  simp only [Factory.meaning?, Factory.parameterScope, factoryOf, List.mapIdx_cons, List.mapIdx_nil,
    List.cons_append, List.nil_append, List.lookup_cons]
  by_cases haddress : name = "address"
  · rw [if_pos haddress, beq_iff_eq.mpr haddress]
  · rw [if_neg haddress, beq_eq_false_iff_ne.mpr haddress]
    by_cases hrunner : name = runner
    · rw [if_pos hrunner, beq_iff_eq.mpr hrunner]
    · rw [if_neg hrunner, beq_eq_false_iff_ne.mpr hrunner]

theorem lookup_imported : (Factory.moduleScope identifier).lookup "Contract" = some .imported := by
  simp [Factory.moduleScope]

theorem lookup_constant :
    (Factory.moduleScope identifier).lookup (abiName identifier) = some .constant := by
  have hne : (abiName identifier == "Contract") = false :=
    beq_eq_false_iff_ne.mpr (ne_abiName (by decide)).symm
  simp [Factory.moduleScope, List.lookup_cons, hne]

/-- **The factory is hygienic exactly if its second parameter has no name that is taken.** -/
theorem isHygienic_iff : (factoryOf identifier runner).IsHygienic identifier ↔
    runner ≠ "address" ∧ runner ≠ "Contract" ∧ runner ≠ abiName identifier := by
  have haddress : "Contract" ≠ "address" := by decide
  have hconstant : abiName identifier ≠ "address" := (ne_abiName (by decide)).symm
  constructor
  · rintro ⟨hdistinct, ⟨-, hconstructed⟩, harguments⟩
    have hrunner : runner ≠ "address" := by
      rintro rfl
      simp [factoryOf] at hdistinct
    refine ⟨hrunner, ?_, ?_⟩
    · rintro rfl
      rw [meaning?_factoryOf, if_neg haddress, if_pos rfl] at hconstructed
      cases hconstructed
    · rintro rfl
      have hsecond := (List.cons.inj (List.cons.inj harguments).2).1
      rw [meaning?_factoryOf, if_neg hconstant, if_pos rfl] at hsecond
      cases hsecond
  · rintro ⟨hrunner, hcontract, habi⟩
    refine ⟨?_, ⟨rfl, ?_⟩, ?_⟩
    · simpa [factoryOf] using hrunner.symm
    · rw [meaning?_factoryOf, if_neg haddress, if_neg hcontract.symm, lookup_imported]
    · show [_, _, _] = _
      rw [meaning?_factoryOf, meaning?_factoryOf, meaning?_factoryOf, if_pos rfl, if_neg hconstant,
        if_neg habi.symm, lookup_constant, if_neg hrunner, if_pos rfl]

/-! ## Dialects -/

theorem underscore_not_mem_reserved {word : String} (h : word ∈ reservedWords) : '_' ∉ word.toList :=
  fun hmem => not_reserved_of_mem hmem (by decide) h

/-- **A parameter is named like the constant exactly if its name is rewritten to that.**  Neither the name
of an anonymous parameter nor a reserved word with `_` in front ends like the constant. -/
theorem parameterName_eq_abiName_iff (hidentifier : isIdentifier identifier = true) (index : Nat) :
    parameterName name index = abiName identifier ↔ sanitize name = abiName identifier := by
  rcases parameterName_cases name index with ⟨rfl, hname⟩ | ⟨hword, hname⟩ | ⟨-, hname⟩
  · -- what is made up has no `_`, and what `""` is sanitised to has no letter
    have hmadeUp : '_' ∉ ("arg" ++ Nat.repr index).toList := by
      have hdigits : '_' ∉ Nat.toDigits 10 index := fun hdigit =>
        absurd (Nat.isDigit_of_mem_toDigits (by decide) (by decide) hdigit) (by decide)
      simp [hdigits]
    refine iff_of_false (hname ▸ ne_abiName hmadeUp) fun h => ?_
    have hletter : 'a' ∈ (abiName identifier).toList := by simp [abiName, String.toList_append]
    rw [← h] at hletter
    exact absurd hletter (by decide)
  · have hplain := underscore_not_mem_reserved hword
    refine iff_of_false (fun h => ?_) (ne_abiName hplain)
    -- the first `_` is the guard, and the constant has another one behind its first character
    obtain ⟨c, rest, hchars, -⟩ := isIdentifier_iff.mp hidentifier
    have htail := congrArg (fun s : String => s.toList.tail) (hname.symm.trans h)
    simp only [String.toList_append, abiName, hchars, List.cons_append, List.tail_cons] at htail
    have hmem : '_' ∈ rest ++ "_abi".toList := List.mem_append_right rest (by decide)
    rw [← htail] at hmem
    exact absurd hmem hplain
  · rw [hname]

/--
**When a factory is hygienic.**  The source of a module ends with its factory, whose second parameter is
named by an identifier that is no reserved word.  The factory is hygienic exactly if the dialect does not
call the parameter `address` or `Contract` and does not give it a name that becomes the name of the constant
that holds the ABI.
-/
theorem render_factory (dialect : Dialect) (contract : String) (d : Abi.Document)
    (signatures : List Signature) :
    (BindingModule.render dialect contract d signatures).source =
        banner contract ++ "\n" ++ importLine dialect (members signatures) ++ "\n"
          ++ abiConstant (sanitize contract) (abiLiteral d) ++ "\n"
          ++ contractType (sanitize contract) (members signatures) ++ "\n"
          ++ (factoryOf (sanitize contract) (parameterName dialect.runnerParameter 0)).text ∧
      isIdentifier (parameterName dialect.runnerParameter 0) = true ∧
      parameterName dialect.runnerParameter 0 ∉ reservedWords ∧
      ((factoryOf (sanitize contract) (parameterName dialect.runnerParameter 0)).IsHygienic
          (sanitize contract) ↔
        dialect.runnerParameter ≠ "address" ∧ dialect.runnerParameter ≠ "Contract" ∧
          sanitize dialect.runnerParameter ≠ sanitize contract ++ "_abi") := by
  have husable := isUsable_parameterName dialect.runnerParameter 0
  refine ⟨by rw [text_factoryOf]; rfl, husable.identifier, husable.not_reserved, ?_⟩
  rw [isHygienic_iff]
  refine and_congr (not_congr ?_) (and_congr (not_congr ?_) (not_congr ?_))
  · exact parameterName_eq_iff_of_letters ⟨by decide, by decide⟩ (by decide) 0
  · exact parameterName_eq_iff_of_letters ⟨by decide, by decide⟩ (by decide) 0
  · exact parameterName_eq_abiName_iff (isIdentifier_sanitize contract) 0

/-- **Factories that are not hygienic**: two parameters of one name, a parameter that hides the class, and
one that hides the constant. -/
theorem not_isHygienic_sample :
    ¬ (factoryOf (sanitize "T") (parameterName "address" 0)).IsHygienic (sanitize "T") ∧
    ¬ (factoryOf (sanitize "T") (parameterName "Contract" 0)).IsHygienic (sanitize "T") ∧
    ¬ (factoryOf (sanitize "T") (parameterName "T-abi" 0)).IsHygienic (sanitize "T") := by
  simp only [isHygienic_iff]
  decide +kernel

end ContractBindings.Binding
