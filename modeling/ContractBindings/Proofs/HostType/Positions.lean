import ContractBindings.Proofs.HostType.Grammar
import ContractBindings.Signature

/-!
# Inputs and outputs

One ABI type resolves to two host types, one for parameters and one for outputs.

* `resolve_output`: the type of an output is that of an input, normalised: bytes and addresses become
  hexadecimal text, at the same depth;
* `import?_resolve_output`, `innermost_resolve_input_ne`: so an output needs no name from the runtime
  module, and no input is normalised;
* `isUnknown_resolve_iff`: a type is unknown in both positions if its base is no word of the grammar;
* `hasUnknown_ofFunction_iff`: a function has unknown types if one of its inputs or outputs is such a type,
  whatever the number of its outputs makes of them.
-/

set_option autoImplicit false

namespace ContractBindings

namespace HostType

/-! ## One type in two positions -/

/-- The type with whatever is accepted as bytes or as an address normalised to hexadecimal text. -/
def normalised (type : HostType) : HostType :=
  (if type.innermost = bytesLike ∨ type.innermost = addressLike then hexString
    else type.innermost).nest type.depth

theorem innermost_ofBase (base : List Char) (position : Position) :
    (ofBase base position).innermost = ofBase base position ∧ (ofBase base position).depth = 0 :=
  innermost_of_scalar (isBaseType_ofBase base position).scalar

theorem ofBase_output (base : List Char) :
    ofBase base .output =
      if ofBase base .input = bytesLike ∨ ofBase base .input = addressLike then hexString
      else ofBase base .input := by
  unfold ofBase
  cases class? base with
  | none => rfl
  | some c => cases c <;> rfl

variable {type base : String} {n : Nat} {position : Position}

theorem IsSplit.innermost_eq (h : IsSplit type n base) :
    (resolve type position).innermost = ofBase base.toList position := by
  rw [h.resolve_eq, innermost_nest, (innermost_ofBase _ _).1]

theorem IsSplit.depth_eq (h : IsSplit type n base) : (resolve type position).depth = n := by
  rw [h.resolve_eq, depth_nest, (innermost_ofBase _ _).2, Nat.zero_add]

/-- **The type of an output is that of an input, normalised.** -/
theorem resolve_output (type : String) :
    resolve type .output = normalised (resolve type .input) := by
  obtain ⟨n, base, h⟩ := exists_isSplit type
  rw [normalised, h.innermost_eq, h.depth_eq, ← ofBase_output, h.resolve_eq]

theorem depth_resolve (type : String) :
    (resolve type .output).depth = (resolve type .input).depth := by
  obtain ⟨n, base, h⟩ := exists_isSplit type
  rw [h.depth_eq, h.depth_eq]

/-- **An output needs no name**, in however many arrays it is. -/
theorem import?_resolve_output (type : String) : (resolve type .output).import? = none := by
  unfold resolve ofBase
  rw [import?_nest]
  split
  · rename_i c _
    cases c <;> rfl
  · rfl

/-- **No input is normalised.** -/
theorem innermost_resolve_input_ne (type : String) : (resolve type .input).innermost ≠ hexString := by
  obtain ⟨n, base, h⟩ := exists_isSplit type
  rw [h.innermost_eq]
  intro hhex
  have hposition := ((isBaseType_ofBase base.toList .input).hexString_iff.mp hhex).1
  cases hposition

/-- The base of a type is no word of any class. -/
def IsUnmapped (type : String) : Prop :=
  ∃ n base, IsSplit type n base ∧ ∀ c, ¬ IsWord c base.toList

theorem isUnknown_iff_innermost (type : HostType) : type.isUnknown = true ↔ type.innermost = unknown := by
  induction type with
  | array element ih => exact ih
  | _ => simp [isUnknown, innermost]

/-- **A type is unknown if its base is no word**, in both positions. -/
theorem isUnknown_resolve_iff (type : String) (position : Position) :
    (resolve type position).isUnknown = true ↔ IsUnmapped type := by
  obtain ⟨n, base, h⟩ := exists_isSplit type
  rw [isUnknown_iff_innermost, h.innermost_eq, (isBaseType_ofBase base.toList position).unknown_iff]
  constructor
  · exact fun hwords => ⟨n, base, h, hwords⟩
  · rintro ⟨n', base', h', hwords⟩
    rwa [(h'.unique h).2]

end HostType

/-! ## The types of a function -/

def Returns.types : Returns → List HostType
  | .transaction => []
  | .bare type => [type]
  | .tuple outputs => outputs.map Parameter.type

/-- The types in the line of a function: those of its parameters, and those that a call resolves to. -/
def Signature.types (s : Signature) : List HostType := s.parameters.map Parameter.type ++ s.returns.types

theorem Returns.types_ofOutputs (outputs : List Abi.Argument) :
    (Returns.ofOutputs outputs).types = outputs.map fun a => HostType.resolve a.type .output := by
  match outputs with
  | [] => rfl
  | [_] => rfl
  | _ :: _ :: _ => simp [ofOutputs, types, Parameter.ofArgument]

namespace Signature

open HostType Abi

theorem types_ofFunction (f : Function) :
    (ofFunction f).types = (f.inputs.map fun a => resolve a.type .input)
      ++ f.outputs.map fun a => resolve a.type .output := by
  rw [types, ofFunction, Returns.types_ofOutputs, List.map_map]
  rfl

/-- Whatever a call resolves to, all its types are looked at. -/
theorem hasUnknown_eq (s : Signature) : s.hasUnknown = s.types.any isUnknown := by
  have hreturns : s.returns.hasUnknown = s.returns.types.any isUnknown := by
    cases s.returns <;> simp [Returns.hasUnknown, Returns.types, List.any_map, Function.comp_def]
  rw [hasUnknown, hreturns, types, List.any_append, List.any_map, Bool.or_comm]
  rfl

/-- **A function has unknown types if one of its inputs or outputs has no mapping.** -/
theorem hasUnknown_ofFunction_iff (f : Function) :
    (ofFunction f).hasUnknown = true ↔ ∃ a ∈ f.inputs ++ f.outputs, IsUnmapped a.type := by
  rw [hasUnknown_eq, types_ofFunction, List.any_append, Bool.or_eq_true, List.any_map, List.any_map,
    List.any_eq_true, List.any_eq_true]
  simp only [Function.comp_apply, isUnknown_resolve_iff, List.mem_append, or_and_right, exists_or]

/-- It does not matter which arguments are inputs and which are outputs. -/
theorem hasUnknown_congr {f g : Function} (h : (g.inputs ++ g.outputs).Perm (f.inputs ++ f.outputs)) :
    (ofFunction g).hasUnknown = (ofFunction f).hasUnknown := by
  rw [Bool.eq_iff_iff, hasUnknown_ofFunction_iff, hasUnknown_ofFunction_iff]
  simp only [h.mem_iff]

/--
**Inputs and outputs stay in step.**  The type of an output is that of an input with bytes and addresses
normalised, as deep and as unknown as that; it needs no name, and no input is normalised.  So a function
has unknown types exactly if the base of one of its arguments is no word, and making all arguments outputs
or all of them inputs, in any order, changes nothing.
-/
theorem positions_in_step :
    (∀ type : String,
      resolve type .output = normalised (resolve type .input) ∧
      (resolve type .output).depth = (resolve type .input).depth ∧
      ((resolve type .output).isUnknown = true ↔ (resolve type .input).isUnknown = true) ∧
      (resolve type .output).import? = none ∧
      (resolve type .input).innermost ≠ hexString) ∧
    ∀ f : Function,
      ((ofFunction f).hasUnknown = true ↔ ∃ a ∈ f.inputs ++ f.outputs, IsUnmapped a.type) ∧
      ∀ arguments : List Argument, arguments.Perm (f.inputs ++ f.outputs) →
        (ofFunction { f with inputs := [], outputs := arguments }).hasUnknown
          = (ofFunction f).hasUnknown ∧
        (ofFunction { f with inputs := arguments, outputs := [] }).hasUnknown
          = (ofFunction f).hasUnknown := by
  refine ⟨fun type => ⟨resolve_output type, depth_resolve type, ?_, import?_resolve_output type,
    innermost_resolve_input_ne type⟩, fun f => ⟨hasUnknown_ofFunction_iff f, ?_⟩⟩
  · rw [isUnknown_resolve_iff, isUnknown_resolve_iff]
  · intro arguments hperm
    exact ⟨hasUnknown_congr hperm, hasUnknown_congr (by simpa using hperm)⟩

end Signature

end ContractBindings
