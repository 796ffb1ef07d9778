import Mathlib
import ContractBindings.Proofs.Abi.Records
import ContractBindings.Binding.Module

/-!
# The order of keys, and foreign keys

An entry is edited by changing the order of the keys of an object anywhere in it, and by adding keys that are
not named there: an entry names its tag and the fields of its kind, an argument its four fields, a parameter
of an event the mark besides.  A mutability that is written as an object has no fields: its only key is the
word itself, so nothing is added to it.

* `Place`: what a value inside an entry is read as, which depends on where it stands;
* `Edit`: one edit at a place, at any depth;
* `Edit.agree`: an edit does not change what is read, nor that nothing can be read, by induction on where it
  is made;
* `items_of_edits`: so however often the entries of a document are edited, it has the same entries, the same
  signatures, and the same bindings up to the literal of the ABI.
-/

set_option autoImplicit false

namespace ContractBindings.Abi

open Json

/-! ## Places -/

/-- What a value inside an entry is read as. -/
inductive Place where
  | item
  | argument
  | parameter
  | arguments
  | parameters
  | mutability
  /-- What stands beside the word of a mutability. -/
  | unit
  /-- A text or a truth value. -/
  | scalar
  /-- What is not read. -/
  | foreign
  deriving DecidableEq, Repr

/-- What the value of a field is read as. -/
def ItemField.place : ItemField → Place
  | name | anonymous => .scalar
  | inputs | outputs => .arguments
  | parameters => .parameters
  | mutability => .mutability

def Item.kindOf? (ms : List (String × Json)) : Option ItemKind := (tagOf? ms).bind ItemKind.ofTag?

namespace Place

/-- What the value of a field is read as, if there is such a field. -/
def ofField (field : Option ItemField) : Place := field.elim foreign ItemField.place

/-- What the value at a key of an argument is read as. -/
def ofArgumentKey (key : String) : Place :=
  if key = "components" then arguments else if key ∈ argumentKeys then scalar else foreign

/-- What the value at a key is read as in an object with these members. -/
def member : Place → List (String × Json) → String → Place
  | item, ms, key =>
    if key = "type" then scalar else ofField ((Item.kindOf? ms).bind fun kind => kind.fieldAt? key)
  | argument, _, key => ofArgumentKey key
  | parameter, _, key => if key = "indexed" then scalar else ofArgumentKey key
  | mutability, _, _ | unit, _, _ => unit
  | arguments, _, _ | parameters, _, _ | scalar, _, _ | foreign, _, _ => foreign

/-- What an element of an array is read as, behind these other elements. -/
def element : Place → List Json → Place
  | item, [] => scalar
  | item, tag :: before => ofField
    (((readTag tag).toOption.bind ItemKind.ofTag?).bind fun kind => kind.fields[before.length]?)
  | argument, before => (argumentKeys[before.length]?).elim foreign ofArgumentKey
  | arguments, _ => argument
  | parameters, _ => parameter
  | parameter, _ | mutability, _ | unit, _ | scalar, _ | foreign, _ => foreign

/-- Whether a value stands for nothing. -/
def IsEmpty (v : Json) : Prop := v = .null ∨ v = .object []

/-- Two values are read as the same at a place, or neither can be read. -/
def Agree : Place → Json → Json → Prop
  | item, v, w => (Item.ofJson v).toOption = (Item.ofJson w).toOption
  | argument, v, w => (readArgument v).toOption = (readArgument w).toOption
  | parameter, v, w => (readEventParameter v).toOption = (readEventParameter w).toOption
  | arguments, v, w => (readArguments v).toOption = (readArguments w).toOption
  | parameters, v, w => (readList readEventParameter v).toOption = (readList readEventParameter w).toOption
  | mutability, v, w => (readMutability v).toOption = (readMutability w).toOption
  | unit, v, w => IsEmpty v ↔ IsEmpty w
  | scalar, v, w => (readString v).toOption = (readString w).toOption ∧
    (readBool v).toOption = (readBool w).toOption
  | foreign, _, _ => True

end Place

/-- One edit at a place: the keys of an object in another order, a key that is not named there, or an edit
inside a member or an element. -/
inductive Edit : Place → Json → Json → Prop where
  | permute {p : Place} {ms ms' : List (String × Json)} (hperm : ms.Perm ms')
    (hkeys : (ms.map Prod.fst).Nodup) : Edit p (.object ms) (.object ms')
  | add {p : Place} {ms ms' : List (String × Json)} {key : String} {v : Json}
    (hforeign : p.member (ms ++ ms') key = .foreign) :
    Edit p (.object (ms ++ ms')) (.object (ms ++ (key, v) :: ms'))
  | member {p : Place} {ms ms' : List (String × Json)} {key : String} {v v' : Json}
    (h : Edit (p.member (ms ++ (key, v) :: ms') key) v v') :
    Edit p (.object (ms ++ (key, v) :: ms')) (.object (ms ++ (key, v') :: ms'))
  | element {p : Place} {xs ys : List Json} {v v' : Json} (h : Edit (p.element xs) v v') :
    Edit p (.array (xs ++ v :: ys)) (.array (xs ++ v' :: ys))

/-! ## Members that are looked up -/

section Lookup

variable {ms ms' : List (String × Json)} {key k : String} {v v' : Json}

theorem get?_perm (hperm : ms.Perm ms') (hkeys : (ms.map Prod.fst).Nodup) :
    Fields.get? key ms = Fields.get? key ms' := by
  unfold Fields.get?
  induction hperm with
  | nil => rfl
  | cons m _ ih =>
    rw [List.lookup_cons, List.lookup_cons, ih (List.nodup_cons.mp hkeys).2]
  | swap m m' ms =>
    obtain ⟨k, v⟩ := m
    obtain ⟨k', v'⟩ := m'
    have hne : k' ≠ k := by
      rintro rfl
      simp at hkeys
    by_cases hkey : key = k
    · subst hkey
      simp [List.lookup_cons, beq_eq_false_iff_ne.mpr hne.symm]
    · simp [List.lookup_cons, beq_eq_false_iff_ne.mpr hkey]
  | trans h₁ _ ih₁ ih₂ => exact (ih₁ hkeys).trans (ih₂ ((h₁.map Prod.fst).nodup_iff.mp hkeys))

theorem get?_insert (h : k ≠ key) :
    Fields.get? key (ms ++ (k, v) :: ms') = Fields.get? key (ms ++ ms') := by
  simp only [Fields.get?, List.lookup_append, List.lookup_cons, beq_eq_false_iff_ne.mpr h.symm]

/-- A member with another value is found where the old one was found. -/
theorem get?_replace (key k : String) (ms ms' : List (String × Json)) (v v' : Json) :
    Fields.get? key (ms ++ (k, v) :: ms') = Fields.get? key (ms ++ (k, v') :: ms') ∨
      k = key ∧ Fields.get? key (ms ++ (k, v) :: ms') = some v ∧
        Fields.get? key (ms ++ (k, v') :: ms') = some v' := by
  by_cases hkey : k = key
  · subst hkey
    simp only [Fields.get?, List.lookup_append, List.lookup_cons_self]
    cases ms.lookup k with
    | none => simp
    | some w => exact .inl rfl
  · exact .inl ((get?_insert hkey).trans (get?_insert hkey).symm)

end Lookup

/-! ## Values that agree -/

namespace Place

variable {v v' : Json} {ms ms' : List (String × Json)} {key : String}

theorem ofField_eq_foreign_iff {field : Option ItemField} : ofField field = foreign ↔ field = none := by
  cases field with
  | none => simp [ofField]
  | some field => cases field <;> simp [ofField, ItemField.place]

theorem agree_ofField {field : ItemField} (h : (ofField (some field)).Agree v v') :
    (field.record.read v).toOption = (field.record.read v').toOption := by
  cases field with
  | name => exact h.1
  | anonymous => exact h.2
  | inputs | outputs | parameters | mutability => exact h

theorem agree_ofArgumentKey (h : (ofArgumentKey key).Agree v v') {f : RecordField ArgumentDraft}
    (hf : argumentRecord key = some f) : (f.read v).toOption = (f.read v').toOption := by
  unfold argumentRecord at hf
  unfold ofArgumentKey argumentKeys at h
  split_ifs at hf with htype hname hinternal hcomponents
  · subst htype
    cases hf
    exact h.1
  · subst hname
    cases hf
    exact h.1
  · subst hinternal
    cases hf
    exact h.1
  · subst hcomponents
    cases hf
    exact h

theorem argumentRecord_eq_none (h : ofArgumentKey key = foreign) : argumentRecord key = none := by
  rw [argumentRecord_eq_none_iff]
  unfold ofArgumentKey at h
  split_ifs at h
  assumption

theorem toOption_readTag (v : Json) : (readTag v).toOption = (readString v).toOption := by
  cases v <;> rfl

/-- A list is read as the same if an element is. -/
theorem toOption_readList_congr {α : Type} {item : Json → Except ShapeError α}
    (h : (item v).toOption = (item v').toOption) (xs ys : List Json) :
    (readList item (.array (xs ++ v :: ys))).toOption = (readList item (.array (xs ++ v' :: ys))).toOption := by
  rw [readList, readList, toOption_mapM, toOption_mapM]
  simp only [List.mapM_append, List.mapM_cons, h]

/-- An entry is read as the same if its tag is, and its members are read as the same for that kind. -/
theorem agree_item (htag : Item.tagOf? ms = Item.tagOf? ms')
    (hkind : ∀ kind, Item.kindOf? ms = some kind → kind.ofMembers? ms = kind.ofMembers? ms') :
    item.Agree (.object ms) (.object ms') := by
  rw [Agree, Item.toOption_ofJson_object, Item.toOption_ofJson_object, ← htag]
  cases hms : Item.tagOf? ms with
  | none => rfl
  | some tag =>
    simp only [Option.bind_some, Item.tagged?]
    cases htag : ItemKind.ofTag? tag with
    | none => rfl
    | some kind => exact hkind kind (by rw [Item.kindOf?, hms]; exact htag)

/-- An argument is read as the same if its members are. -/
theorem agree_argument (h : argumentOf? ms = argumentOf? ms') : argument.Agree (.object ms) (.object ms') := by
  rw [Agree, toOption_readArgument, toOption_readArgument]
  exact h

/-- A parameter is read as the same if its mark and the members of the argument are. -/
theorem agree_parameter (hindexed : indexedOf? ms = indexedOf? ms') (h : argumentOf? ms = argumentOf? ms') :
    parameter.Agree (.object ms) (.object ms') := by
  rw [Agree, toOption_readEventParameter, toOption_readEventParameter, hindexed, h]

/-- Of the objects only those with one key are read as a mutability. -/
theorem toOption_readMutability_of_length (h : ms.length ≠ 1) :
    (readMutability (.object ms)).toOption = none := by
  rcases ms with _ | ⟨m, _ | ⟨m', ms⟩⟩
  · rfl
  · exact absurd rfl h
  · rfl

theorem toOption_readMutability_of_isEmpty (h : IsEmpty v) :
    (readMutability (.object [(key, v)])).toOption = (mutabilityOfWord key).toOption := by
  rcases h with rfl | rfl <;> cases hword : mutabilityOfWord key <;> simp [readMutability, hword] <;> rfl

theorem toOption_readMutability_of_not_isEmpty (h : ¬ IsEmpty v) :
    (readMutability (.object [(key, v)])).toOption = none := by
  rw [readMutability, toOption_bind]
  refine Option.bind_eq_none_iff.mpr fun m _ => ?_
  split
  · exact absurd (.inl rfl) h
  · exact absurd (.inr rfl) h
  · rfl

/-! ## An edit of the keys -/

/-- **Objects with the same keys in another order agree.** -/
theorem agree_permute (p : Place) (hperm : ms.Perm ms') (hkeys : (ms.map Prod.fst).Nodup) :
    p.Agree (.object ms) (.object ms') := by
  have hargument : argumentOf? ms = argumentOf? ms' := by
    rw [argumentOf?, argumentOf?, toOption_fillAll_perm areApart_argumentRecord hkeys hperm]
  cases p with
  | item =>
    refine agree_item (by rw [Item.tagOf?, Item.tagOf?, get?_perm hperm hkeys]) fun kind _ => ?_
    rw [ItemKind.ofMembers?, ItemKind.ofMembers?, toOption_fillAll_perm kind.areApart_entryRecord hkeys hperm]
  | argument => exact agree_argument hargument
  | parameter => exact agree_parameter (by rw [indexedOf?, indexedOf?, get?_perm hperm hkeys]) hargument
  | mutability =>
    by_cases hlength : ms.length = 1
    · obtain ⟨m, rfl⟩ := List.length_eq_one_iff.mp hlength
      rw [List.perm_singleton.mp hperm.symm]
      rfl
    · rw [Agree, toOption_readMutability_of_length hlength,
        toOption_readMutability_of_length (hperm.length_eq ▸ hlength)]
  | unit =>
    have hnil : ms = [] ↔ ms' = [] := by rw [← List.perm_nil, ← List.perm_nil, hperm.congr_left]
    simp [Agree, IsEmpty, hnil]
  | arguments | parameters => rfl
  | scalar => exact ⟨rfl, rfl⟩
  | foreign => trivial

/-- **An object agrees with itself and a key besides that is not named there.** -/
theorem agree_add (p : Place) (hforeign : p.member (ms ++ ms') key = foreign) (v : Json) :
    p.Agree (.object (ms ++ ms')) (.object (ms ++ (key, v) :: ms')) := by
  have hargument : ofArgumentKey key = foreign →
      argumentOf? (ms ++ ms') = argumentOf? (ms ++ (key, v) :: ms') := by
    intro h
    rw [argumentOf?, argumentOf?, toOption_fillAll_foreign (argumentRecord_eq_none h)]
  cases p with
  | item =>
    rw [member] at hforeign
    split_ifs at hforeign with htype
    rw [ofField_eq_foreign_iff] at hforeign
    refine agree_item (by rw [Item.tagOf?, Item.tagOf?, get?_insert htype]) fun kind hkind => ?_
    rw [hkind, Option.bind_some] at hforeign
    have hnone : kind.entryRecord key = none := by rw [ItemKind.entryRecord, hforeign]; rfl
    rw [ItemKind.ofMembers?, ItemKind.ofMembers?, toOption_fillAll_foreign hnone]
  | argument => exact agree_argument (hargument hforeign)
  | parameter =>
    rw [member] at hforeign
    split_ifs at hforeign with hindexed
    exact agree_parameter (by rw [indexedOf?, indexedOf?, get?_insert hindexed]) (hargument hforeign)
  | mutability | unit => cases hforeign
  | arguments | parameters => rfl
  | scalar => exact ⟨rfl, rfl⟩
  | foreign => trivial

/-! ## An edit of a member -/

theorem tagOf?_congr (h : key = "type" → scalar.Agree v v') :
    Item.tagOf? (ms ++ (key, v) :: ms') = Item.tagOf? (ms ++ (key, v') :: ms') := by
  rw [Item.tagOf?, Item.tagOf?]
  rcases get?_replace "type" key ms ms' v v' with hsame | ⟨htype, hv, hv'⟩
  · rw [hsame]
  · rw [hv, hv', Option.bind_some, Option.bind_some, toOption_readTag, toOption_readTag]
    exact (h htype).1

theorem indexedOf?_congr (h : key = "indexed" → scalar.Agree v v') :
    indexedOf? (ms ++ (key, v) :: ms') = indexedOf? (ms ++ (key, v') :: ms') := by
  rw [indexedOf?, indexedOf?]
  rcases get?_replace "indexed" key ms ms' v v' with hsame | ⟨hindexed, hv, hv'⟩
  · rw [hsame]
  · rw [hv, hv']
    exact (h hindexed).2

theorem argumentOf?_congr (h : (ofArgumentKey key).Agree v v') :
    argumentOf? (ms ++ (key, v) :: ms') = argumentOf? (ms ++ (key, v') :: ms') := by
  rw [argumentOf?, argumentOf?, toOption_fillAll_congr fun f => agree_ofArgumentKey h]

theorem agree_item_member (h : (item.member (ms ++ (key, v) :: ms') key).Agree v v') :
    item.Agree (.object (ms ++ (key, v) :: ms')) (.object (ms ++ (key, v') :: ms')) := by
  have htag : key = "type" → scalar.Agree v v' := by
    rintro rfl
    exact h
  refine agree_item (tagOf?_congr htag) fun kind hkind => ?_
  have hread : ∀ f, kind.entryRecord key = some f → (f.read v).toOption = (f.read v').toOption := by
    intro f hf
    obtain ⟨field, hfield, rfl⟩ := Option.map_eq_some_iff.mp hf
    have htype : key ≠ "type" := by
      rw [← ItemKind.key_of_fieldAt? hfield]
      cases field <;> decide
    rw [member, if_neg htype, hkind, Option.bind_some, hfield] at h
    exact agree_ofField h
  rw [ItemKind.ofMembers?, ItemKind.ofMembers?, toOption_fillAll_congr hread]

theorem agree_parameter_member (h : (parameter.member (ms ++ (key, v) :: ms') key).Agree v v') :
    parameter.Agree (.object (ms ++ (key, v) :: ms')) (.object (ms ++ (key, v') :: ms')) := by
  by_cases hkey : key = "indexed"
  · subst hkey
    -- the mark of a parameter is no key of an argument
    exact agree_parameter (indexedOf?_congr fun _ => h) (argumentOf?_congr trivial)
  · rw [member, if_neg hkey] at h
    exact agree_parameter (indexedOf?_congr fun he => absurd he hkey) (argumentOf?_congr h)

theorem agree_mutability_member (h : IsEmpty v ↔ IsEmpty v') :
    mutability.Agree (.object (ms ++ (key, v) :: ms')) (.object (ms ++ (key, v') :: ms')) := by
  by_cases hlength : (ms ++ ms').length = 0
  · obtain ⟨rfl, rfl⟩ := List.append_eq_nil_iff.mp (List.length_eq_zero_iff.mp hlength)
    rw [Agree, List.nil_append, List.nil_append]
    by_cases hempty : IsEmpty v
    · rw [toOption_readMutability_of_isEmpty hempty, toOption_readMutability_of_isEmpty (h.mp hempty)]
    · rw [toOption_readMutability_of_not_isEmpty hempty,
        toOption_readMutability_of_not_isEmpty (mt h.mpr hempty)]
  · have hmany : ∀ w, (ms ++ (key, w) :: ms').length ≠ 1 := by
      intro w
      simp only [List.length_append, List.length_cons] at hlength ⊢
      omega
    rw [Agree, toOption_readMutability_of_length (hmany v), toOption_readMutability_of_length (hmany v')]

/-- **Objects agree that differ in a member in which they agree.** -/
theorem agree_member (p : Place) (h : (p.member (ms ++ (key, v) :: ms') key).Agree v v') :
    p.Agree (.object (ms ++ (key, v) :: ms')) (.object (ms ++ (key, v') :: ms')) := by
  cases p with
  | item => exact agree_item_member h
  | argument => exact agree_argument (argumentOf?_congr h)
  | parameter => exact agree_parameter_member h
  | mutability => exact agree_mutability_member h
  | unit => simp [Agree, IsEmpty]
  | arguments | parameters => rfl
  | scalar => exact ⟨rfl, rfl⟩
  | foreign => trivial

/-! ## An edit of an element -/

/-- Arrays of as many elements stand for members with the same values. -/
theorem membersOf?_congr {α : Type} {keys : List String} {f : List (String × Json) → Option α}
    {xs ys : List Json}
    (h : f (keys.zip (xs ++ v :: ys)) = f (keys.zip (xs ++ v' :: ys))) :
    (membersOf? keys (.array (xs ++ v :: ys))).bind f = (membersOf? keys (.array (xs ++ v' :: ys))).bind f := by
  have hlength : (xs ++ v :: ys).length = (xs ++ v' :: ys).length := by simp
  rw [membersOf?, membersOf?, hlength]
  split
  · exact h
  · rfl

theorem agree_item_element {xs : List Json} (h : (item.element xs).Agree v v') (ys : List Json) :
    item.Agree (.array (xs ++ v :: ys)) (.array (xs ++ v' :: ys)) := by
  cases xs with
  | nil =>
    rw [Agree, List.nil_append, List.nil_append, Item.toOption_ofJson_array, Item.toOption_ofJson_array,
      toOption_readTag, toOption_readTag, h.1]
  | cons tag xs =>
    rw [Agree, List.cons_append, List.cons_append, Item.toOption_ofJson_array, Item.toOption_ofJson_array]
    cases htag : (readTag tag).toOption with
    | none => rfl
    | some word =>
      simp only [Option.bind_some, Item.tagged?]
      cases hkind : ItemKind.ofTag? word with
      | none => cases xs <;> rfl
      | some kind =>
        refine membersOf?_congr ?_
        rw [ItemKind.ofMembers?, ItemKind.ofMembers?, toOption_fillAll_zip_congr]
        intro key hkey f hf
        obtain ⟨field, hfield, rfl⟩ := Option.map_eq_some_iff.mp (List.getElem?_map.symm.trans hkey)
        rw [ItemKind.entryRecord, ItemKind.fieldAt?_key (List.mem_of_getElem? hfield)] at hf
        cases hf
        rw [element, htag, Option.bind_some, hkind, Option.bind_some, hfield] at h
        exact agree_ofField h

theorem agree_argument_element {xs : List Json} (h : (argument.element xs).Agree v v') (ys : List Json) :
    argument.Agree (.array (xs ++ v :: ys)) (.array (xs ++ v' :: ys)) := by
  rw [Agree, toOption_readArgument, toOption_readArgument]
  refine membersOf?_congr ?_
  rw [argumentOf?, argumentOf?, toOption_fillAll_zip_congr]
  intro key hkey f hf
  rw [element, hkey] at h
  exact agree_ofArgumentKey h hf

/-- **Arrays agree that differ in an element in which they agree.** -/
theorem agree_element (p : Place) {xs : List Json} (h : (p.element xs).Agree v v') (ys : List Json) :
    p.Agree (.array (xs ++ v :: ys)) (.array (xs ++ v' :: ys)) := by
  cases p with
  | item => exact agree_item_element h ys
  | argument => exact agree_argument_element h ys
  | arguments => exact toOption_readList_congr h xs ys
  | parameters => exact toOption_readList_congr h xs ys
  | parameter | mutability => rfl
  | unit => simp [Agree, IsEmpty]
  | scalar => exact ⟨rfl, rfl⟩
  | foreign => trivial

end Place

/-- **An edit does not change what is read.**  By induction on where it is made. -/
theorem Edit.agree {p : Place} {v v' : Json} (h : Edit p v v') : p.Agree v v' := by
  induction h with
  | permute hperm hkeys => exact Place.agree_permute _ hperm hkeys
  | add hforeign => exact Place.agree_add _ hforeign _
  | member _ ih => exact Place.agree_member _ ih
  | element _ ih => exact Place.agree_element _ ih _

/-! ## Documents -/

/-- Any number of edits of an entry. -/
abbrev Edits : Json → Json → Prop := Relation.ReflTransGen (Edit .item)

theorem toOption_ofJson_of_edits {v v' : Json} (h : Edits v v') :
    (Item.ofJson v).toOption = (Item.ofJson v').toOption := by
  induction h with
  | refl => rfl
  | tail _ hedit ih => exact ih.trans hedit.agree

theorem ofValue_eq_getD (v : Json) : Item.ofValue v = (Item.ofJson v).toOption.getD .unknown := by
  unfold Item.ofValue
  cases Item.ofJson v <;> rfl

theorem map_ofValue_of_edits {vs vs' : List Json} (h : List.Forall₂ Edits vs vs') :
    vs'.map Item.ofValue = vs.map Item.ofValue := by
  induction h with
  | nil => rfl
  | cons hedits _ ih =>
    rw [List.map_cons, List.map_cons, ih, ofValue_eq_getD, ofValue_eq_getD, toOption_ofJson_of_edits hedits]

/-- Two bindings are the same up to the literal of the ABI. -/
structure AreSameUpToLiteral (m m' : BindingModule) : Prop where
  contractName : m.contractName = m'.contractName
  typeName : m.typeName = m'.typeName
  factoryName : m.factoryName = m'.factoryName
  overloaded : m.overloaded = m'.overloaded
  source : ∃ before after, m.source = before ++ m.abiLiteral ++ after ∧
    m'.source = before ++ m'.abiLiteral ++ after

/-- Only the literal of a binding depends on how the entries are written. -/
theorem areSameUpToLiteral_render (dialect : Binding.Dialect) (name : String) (d d' : Document)
    (signatures : List Signature) :
    AreSameUpToLiteral (.render dialect name d signatures) (.render dialect name d' signatures) := by
  refine ⟨rfl, rfl, rfl, rfl, ?_⟩
  let bound := Binding.members signatures
  let identifier := Text.sanitize name
  refine ⟨Binding.banner name ++ "\n" ++ Binding.importLine dialect bound ++ "\n" ++ "export const "
    ++ Binding.abiName identifier ++ " = ", " as const\n" ++ "\n" ++ Binding.contractType identifier bound
    ++ "\n" ++ Binding.factory identifier (Text.parameterName dialect.runnerParameter 0), ?_, ?_⟩ <;>
  simp only [BindingModule.render, Binding.abiConstant, String.append_assoc, bound, identifier]

namespace Document

/-- **The order of keys and foreign keys do not matter to the model.**  Documents whose entries are edited have
the same entries, whether or not these have the shape of one, and so the same signatures and, up to the
literal of the ABI, the same bindings. -/
theorem items_of_edits {d d' : Document} (h : List.Forall₂ Edits d.raw d'.raw) :
    d'.items = d.items ∧ Signature.ofDocument d' = Signature.ofDocument d ∧
      ∀ (dialect : Binding.Dialect) (name : String),
        AreSameUpToLiteral (.render dialect name d (Signature.ofDocument d))
          (.render dialect name d' (Signature.ofDocument d')) := by
  have hitems : d'.items = d.items := map_ofValue_of_edits h
  have hsignatures : Signature.ofDocument d' = Signature.ofDocument d := by
    rw [Signature.ofDocument, Signature.ofDocument, hitems]
  refine ⟨hitems, hsignatures, fun dialect name => ?_⟩
  rw [hsignatures]
  exact areSameUpToLiteral_render dialect name d d' _

/-- A function with a tuple, an event, and an entry that has no shape. -/
def untouched : Document where
  raw := [
    .object [("type", .string "function"), ("name", .string "f"),
      ("inputs", .array [.object [("type", .string "tuple"),
        ("components", .array [.object [("type", .string "bool"), ("name", .string "b")]])]])],
    .object [("type", .string "event"), ("name", .string "E"),
      ("inputs", .array [.object [("type", .string "bool"), ("indexed", .bool true)]])],
    .object [("type", .string "error"), ("inputs", .bool true)]]

/-- The same with a note in the component of the tuple, a parameter of the event in another order, and a
mutability for the error. -/
def edited : Document where
  raw := [
    .object [("type", .string "function"), ("name", .string "f"),
      ("inputs", .array [.object [("type", .string "tuple"),
        ("components", .array [.object [("type", .string "bool"), ("note", .null), ("name", .string "b")]])]])],
    .object [("type", .string "event"), ("name", .string "E"),
      ("inputs", .array [.object [("indexed", .bool true), ("type", .string "bool")]])],
    .object [("inputs", .bool true), ("type", .string "error"), ("stateMutability", .number (.integer 1))]]

theorem edits_untouched : List.Forall₂ Edits untouched.raw edited.raw := by
  refine .cons (.single ?_) (.cons (.single ?_) (.cons ?_ .nil))
  · refine @Edit.member _ [_, _] [] "inputs" _ _ (@Edit.element _ [] [] _ _ ?_)
    refine @Edit.member _ [_] [] "components" _ _ (@Edit.element _ [] [] _ _ ?_)
    exact @Edit.add _ [_] [_] "note" .null rfl
  · refine @Edit.member _ [_, _] [] "inputs" _ _ (@Edit.element _ [] [] _ _ ?_)
    exact .permute (List.Perm.swap _ _ _) (by decide)
  · exact .tail (.single (.permute (List.Perm.swap _ _ _) (by decide)))
      (@Edit.add _ [_, _] [] "stateMutability" _ rfl)

/-- The sample: the function and the event are read as before, and the third entry is still unknown. -/
theorem items_of_edits_sample :
    List.Forall₂ Edits untouched.raw edited.raw ∧
      edited.items = [.function ⟨"f", [⟨"tuple", "", "", [⟨"bool", "b", "", []⟩]⟩], [], .nonpayable⟩,
        .event ⟨"E", [⟨⟨"bool", "", "", []⟩, true⟩], false⟩, .unknown] :=
  ⟨edits_untouched, (items_of_edits edits_untouched).1.trans rfl⟩

end Document

end ContractBindings.Abi
