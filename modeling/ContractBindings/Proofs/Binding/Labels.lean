import ContractBindings.Proofs.Binding.Lines

/-!
# Labels of tuples

The elements of a tuple have labels, all of them or none.  Whether they may is decided over the names of the
outputs, and the labels are made again when the elements are printed.

* `labels_eq_map`: what a name is rewritten to does not depend on where it stands, so both make the same
  labels;
* `labelsAllowed_iff`: labels are allowed exactly if every output has a name and the rewritten names are
  distinct;
* `areElementsOf_elementSlots`: so the elements have the types of the outputs, in order, and distinct labels or
  none;
* `returnType_labels`: and these are the only elements that the text of the tuple can be read as.
-/

set_option autoImplicit false

namespace ContractBindings.Binding

open Text

variable {name : String} {names : List String} {outputs : List Parameter}

/-! ## Rewritten names -/

/-- What a name is rewritten to: an identifier, with `_` in front if that is a reserved word. -/
def rewritten (name : String) : String :=
  if sanitize name ∈ reservedWords then "_" ++ sanitize name else sanitize name

theorem parameterName_eq_rewritten (h : name ≠ "") (index : Nat) :
    parameterName name index = rewritten name := by
  rcases parameterName_cases name index with ⟨rfl, -⟩ | ⟨hword, heq⟩ | ⟨hword, heq⟩
  · exact absurd rfl h
  · rw [heq, rewritten, if_pos hword]
  · rw [heq, rewritten, if_neg hword]

/-- **The label of an output with a name is what the name is rewritten to**, wherever it stands. -/
theorem labels_eq_map (h : ∀ output ∈ outputs, output.name ≠ "") :
    labels outputs = outputs.map fun output => rewritten output.name := by
  rw [labels, List.mapIdx_eq_iff]
  intro i
  rw [List.getElem?_map]
  cases hi : outputs[i]? with
  | none => rfl
  | some output =>
    have hname := h output (List.mem_of_getElem? hi)
    simp only [Option.map_some, parameterName_eq_rewritten hname]

/-! ## Whether labels are allowed -/

theorem allDistinct_iff : allDistinct names = true ↔ names.Nodup := by
  induction names with
  | nil => simp [allDistinct]
  | cons name names ih => simp [allDistinct, ih]

/-- Outputs that can be told apart by labels: each has a name, and the rewritten names are distinct. -/
structure AreTellable (outputs : List Parameter) : Prop where
  named : ∀ output ∈ outputs, output.name ≠ ""
  distinct : (outputs.map fun output => rewritten output.name).Nodup

/-- **Labels are allowed exactly if they tell the outputs apart.** -/
theorem labelsAllowed_iff : labelsAllowed outputs = true ↔ AreTellable outputs := by
  have hnamed : (outputs.all fun output => !output.name.isEmpty) = true ↔
      ∀ output ∈ outputs, output.name ≠ "" := by
    simp [List.all_eq_true]
  rw [labelsAllowed, Bool.and_eq_true, hnamed, allDistinct_iff]
  constructor
  · rintro ⟨hall, hdistinct⟩
    exact ⟨hall, labels_eq_map hall ▸ hdistinct⟩
  · rintro ⟨hall, hdistinct⟩
    exact ⟨hall, (labels_eq_map hall).symm ▸ hdistinct⟩

/-! ## Elements -/

/-- What the elements of a tuple are for outputs. -/
structure AreElementsOf (outputs : List Parameter) (elements : List Slot) : Prop where
  /-- One element for each output, in order, with its type. -/
  types : elements.map Slot.type = outputs.map Parameter.type
  /-- All of them are labelled exactly if labels tell the outputs apart. -/
  labelled_iff : (∀ e ∈ elements, e.name ≠ none) ↔ AreTellable outputs
  /-- The labels are the rewritten names then. -/
  labels : AreTellable outputs →
    elements.map Slot.name = outputs.map fun output => some (rewritten output.name)
  /-- Otherwise no element is labelled. -/
  unlabelled : ¬ AreTellable outputs → ∀ e ∈ elements, e.name = none
  /-- No two labels are the same. -/
  distinct : (elements.filterMap Slot.name).Nodup
  /-- All labels can be used. -/
  usable : ∀ e ∈ elements, ∀ label ∈ e.name, isIdentifier label = true ∧ label ∉ reservedWords

theorem isUsable_rewritten (name : String) : IsUsable (rewritten name) := by
  by_cases h : name = ""
  · subst h
    exact ⟨by decide, by decide⟩
  · rw [← parameterName_eq_rewritten h 0]
    exact isUsable_parameterName name 0

/-- The elements with their labels, if labels tell the outputs apart. -/
theorem elementSlots_of_areTellable (h : AreTellable outputs) :
    Line.elementSlots outputs = outputs.map fun output => ⟨some (rewritten output.name), output.type⟩ := by
  rw [Line.elementSlots, if_pos (labelsAllowed_iff.mpr h), labels_eq_map h.named, List.zipWith_map_left,
    List.zipWith_self]

theorem elementSlots_of_not_areTellable (h : ¬ AreTellable outputs) :
    Line.elementSlots outputs = outputs.map fun output => ⟨none, output.type⟩ := by
  rw [Line.elementSlots, if_neg (mt labelsAllowed_iff.mp h)]

theorem areElementsOf_labelled (h : AreTellable outputs) :
    AreElementsOf outputs (outputs.map fun output => ⟨some (rewritten output.name), output.type⟩) where
  types := by simp
  labelled_iff := by simp [h]
  labels _ := by simp
  unlabelled hnot := absurd h hnot
  distinct := by simpa [List.filterMap_map, Function.comp_def] using h.distinct
  usable e he label hlabel := by
    obtain ⟨output, _, rfl⟩ := List.mem_map.mp he
    obtain rfl : rewritten output.name = label := Option.some.inj hlabel
    exact ⟨(isUsable_rewritten output.name).identifier, (isUsable_rewritten output.name).not_reserved⟩

theorem areElementsOf_unlabelled (h : ¬ AreTellable outputs) :
    AreElementsOf outputs (outputs.map fun output => ⟨none, output.type⟩) where
  types := by simp
  labelled_iff := by
    refine ⟨fun hall => ?_, fun htell => absurd htell h⟩
    -- only a tuple without elements is labelled and not labelled
    cases outputs with
    | nil => exact ⟨by simp, List.nodup_nil⟩
    | cons output outputs => exact absurd rfl (hall _ List.mem_cons_self)
  labels htell := absurd htell h
  unlabelled _ := by simp
  distinct := by simp [List.filterMap_map]
  usable e he label hlabel := by
    obtain ⟨_, _, rfl⟩ := List.mem_map.mp he
    cases hlabel

/-- **The elements have the types of the outputs, and distinct labels or none.** -/
theorem areElementsOf_elementSlots (outputs : List Parameter) :
    AreElementsOf outputs (Line.elementSlots outputs) := by
  by_cases h : AreTellable outputs
  · rw [elementSlots_of_areTellable h]
    exact areElementsOf_labelled h
  · rw [elementSlots_of_not_areTellable h]
    exact areElementsOf_unlabelled h

/-- The labels of elements are identifiers. -/
theorem AreElementsOf.isLegible {elements : List Slot} (h : AreElementsOf outputs elements) :
    ∀ e ∈ elements, e.IsLegible :=
  fun e he label hlabel => (h.usable e he label hlabel).1

/--
**The labels of a tuple are all or none, and they never clash.**  The text of a tuple is that of elements with
the types of the outputs.  They are labelled exactly if every output has a name and the rewritten names are
distinct; the labels are those names, which can be used.  No other elements whose labels are identifiers have
this text.
-/
theorem returnType_labels (outputs : List Parameter) :
    ∃ elements, AreElementsOf outputs elements ∧
      returnType (.tuple outputs) = (Result.tuple elements).text ∧
      ∀ others : List Slot, (∀ e ∈ others, e.IsLegible) →
        returnType (.tuple outputs) = (Result.tuple others).text → others = elements := by
  have helements := areElementsOf_elementSlots outputs
  have htext : returnType (.tuple outputs) = (Result.tuple (Line.elementSlots outputs)).text :=
    (Line.text_resultOf (.tuple outputs)).symm
  refine ⟨Line.elementSlots outputs, helements, htext, fun others hothers hsame => ?_⟩
  have hchars : (Result.tuple others).text.toList ++ ['>'] =
      (Result.tuple (Line.elementSlots outputs)).text.toList ++ ['>'] := by
    rw [← hsame, htext]
  have hresult := (Result.text_unique (a := .tuple others) (b := .tuple (Line.elementSlots outputs))
    hothers helements.isLegible hchars).1
  exact Result.tuple.inj hresult

/-- A reserved word is stepped around, and names that become one name are left out. -/
example :
    returnType (.tuple [⟨"with", .bool⟩, ⟨"a-b", .bool⟩]) = "readonly [_with: boolean, a_b: boolean]" ∧
      returnType (.tuple [⟨"with", .bool⟩, ⟨"_with", .bool⟩]) = "readonly [boolean, boolean]" := by
  decide +kernel

end ContractBindings.Binding
