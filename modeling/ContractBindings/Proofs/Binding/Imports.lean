import ContractBindings.Proofs.Binding.Members
import ContractBindings.Proofs.HostType.Positions

/-!
# Imported types

A module imports the types that its members use, and no others, although only the parameters are looked
through for them.

* `import?_eq_some_iff`: a type needs a name if it is spelled with that name, inside any number of arrays;
* `mem_importedTypes_iff`: so the imports of a document's functions are those of all types in their lines;
* `render_imports`: the import line of a module names in order what the last function of each name uses
  (`ImportsUsed`).
-/

set_option autoImplicit false

namespace ContractBindings

/-! ## Spellings -/

namespace HostType

/-- A type is spelled as a name, inside any number of arrays. -/
def IsSpelled (type : HostType) (name : String) : Prop := ∃ depth, type.render = name ++ brackets depth

/-- The spellings that are at hand in every module. -/
def builtIn : List String := ["bigint", "`0x$\x7bstring\x7d`", "string", "boolean", "unknown"]

theorem IsSpelled.self (type : HostType) : type.IsSpelled type.render := ⟨0, by simp [brackets]⟩

theorem isSpelled_array_iff {element : HostType} {name : String}
    (hname : name.toList.getLast? ≠ some ']') :
    (array element).IsSpelled name ↔ element.IsSpelled name := by
  constructor
  · rintro ⟨depth, h⟩
    cases depth with
    | zero =>
      refine absurd ?_ hname
      have hlast := congrArg (fun s : String => s.toList.getLast?) h
      simpa [render, brackets] using hlast.symm
    | succ depth =>
      rw [render, brackets_succ, ← String.append_assoc] at h
      exact ⟨depth, (String.append_left_inj _).mp h⟩
  · rintro ⟨depth, h⟩
    exact ⟨depth + 1, by rw [render, h, brackets_succ, String.append_assoc]⟩

/-- A scalar is spelled as no other name: brackets only lengthen the spelling. -/
theorem eq_render_of_isSpelled {type : HostType} (htype : ∀ element, type ≠ array element)
    {name : String} (hname : name ∈ ["AddressLike", "BytesLike"]) (h : type.IsSpelled name) :
    type.render = name := by
  obtain ⟨depth, h⟩ := h
  have hhead : type.render.toList.head? = name.toList.head? := by
    rw [h, String.toList_append, List.head?_append]
    rcases List.mem_pair.mp hname with rfl | rfl <;> rfl
  rcases List.mem_pair.mp hname with rfl | rfl <;> cases type <;>
    first
    | rfl
    | exact absurd rfl (htype _)
    | exact absurd hhead (by decide)

/-- **A type needs a name from the runtime module if it is spelled with it.** -/
theorem import?_eq_some_iff {type : HostType} {name : String}
    (hname : name ∈ ["AddressLike", "BytesLike"]) :
    type.import? = some name ↔ type.IsSpelled name := by
  have hlast : name.toList.getLast? ≠ some ']' := by
    rcases List.mem_pair.mp hname with rfl | rfl <;> decide
  induction type with
  | array element ih => exact ih.trans (isSpelled_array_iff hlast).symm
  | _ =>
    constructor
    · rintro ⟨⟩ <;> exact IsSpelled.self _
    · intro h
      have hrender := eq_render_of_isSpelled (by simp) hname h
      rcases List.mem_pair.mp hname with rfl | rfl <;> first | rfl | exact absurd hrender (by decide)

theorem import?_mem {type : HostType} {name : String} (h : type.import? = some name) :
    name ∈ ["AddressLike", "BytesLike"] := by
  induction type with
  | array element ih => exact ih h
  | _ => cases h <;> simp

/-- Every type is spelled with a name that is at hand or that it needs. -/
theorem exists_isSpelled (type : HostType) :
    ∃ name, type.IsSpelled name ∧ (name ∈ builtIn ∨ type.import? = some name) := by
  induction type with
  | array element ih =>
    obtain ⟨name, hname, hknown⟩ := ih
    obtain ⟨depth, h⟩ := hname
    exact ⟨name, ⟨depth + 1, by rw [render, h, brackets_succ, String.append_assoc]⟩, hknown⟩
  | bytesLike => exact ⟨_, IsSpelled.self _, Or.inr rfl⟩
  | addressLike => exact ⟨_, IsSpelled.self _, Or.inr rfl⟩
  | _ => exact ⟨_, IsSpelled.self _, Or.inl (by decide)⟩

end HostType

/-! ## The types of a function -/

/-- The function that an entry of a document describes needs no name for its outputs. -/
theorem Signature.import?_returns {d : Abi.Document} {s : Signature} (hs : s ∈ ofDocument d)
    {type : HostType} (h : type ∈ s.returns.types) : type.import? = none := by
  obtain ⟨item, _, hitem⟩ := List.mem_filterMap.mp hs
  cases item with
  | function f =>
    cases hitem
    rw [ofFunction, Returns.types_ofOutputs] at h
    obtain ⟨a, _, rfl⟩ := List.mem_map.mp h
    exact HostType.import?_resolve_output a.type
  | _ => cases hitem

namespace Binding

open Text

/-- The last function of its name. -/
def IsLast (signatures : List Signature) (s : Signature) : Prop :=
  (signatures.filter fun t => t.name = s.name).getLast? = some s

variable {signatures : List Signature} {s : Signature}

theorem IsLast.mem (h : IsLast signatures s) : s ∈ signatures :=
  (List.mem_filter.mp (List.mem_of_getLast? h)).1

/-- The members are the last functions of their names. -/
theorem mem_members_iff : s ∈ members signatures ↔ IsLast signatures s := by
  refine ⟨eq_last_of_mem_members, fun h => ?_⟩
  have hbound := bindsLast_members signatures
  obtain ⟨t, ht, hname⟩ :=
    List.mem_map.mp ((hbound.mem_names_iff s.name).mpr (List.mem_map_of_mem h.mem))
  have hlast := hbound.last t ht
  rw [hname, h] at hlast
  cases hlast
  exact ht

/-! ## Imports -/

theorem mem_memberImports_iff {name : String} :
    name ∈ memberImports s ↔ (∃ p ∈ s.parameters, p.type.import? = some name) ∨
      s.returns = .transaction ∧ name = transactionType := by
  rw [memberImports, List.mem_append, List.mem_filterMap]
  split
  · rename_i h; simp [h]
  · rename_i h; simp [h]

theorem mem_importable_iff {name : String} :
    name ∈ importable ↔ name = "Addressable" ∨ name = runnerType ∨
      name ∈ ["AddressLike", "BytesLike"] ∨ name = transactionType := by
  simp only [importable, List.mem_cons, List.not_mem_nil, or_false]
  tauto

theorem mem_importedTypes_cons_iff {bound : List Signature} {name : String} :
    name ∈ importedTypes bound ↔ name = "Addressable" ∨ name = runnerType ∨
      ∃ s ∈ bound, name ∈ memberImports s := by
  rw [importedTypes, List.mem_filter, List.contains_iff_mem, List.mem_cons, List.mem_cons,
    List.mem_flatMap, mem_importable_iff]
  constructor
  · exact fun h => h.2
  · rintro (h | h | ⟨s, hs, h⟩)
    · exact ⟨Or.inl h, Or.inl h⟩
    · exact ⟨Or.inr (Or.inl h), Or.inr (Or.inl h)⟩
    · refine ⟨Or.inr (Or.inr ?_), Or.inr (Or.inr ⟨s, hs, h⟩)⟩
      rcases mem_memberImports_iff.mp h with ⟨p, _, hp⟩ | ⟨_, rfl⟩
      · exact Or.inl (HostType.import?_mem hp)
      · exact Or.inr rfl

/-- **The imports of a document's functions are those of all types in their lines**: looking through the
outputs as well would find nothing more. -/
theorem mem_importedTypes_iff (d : Abi.Document) (name : String) :
    name ∈ importedTypes (members (Signature.ofDocument d)) ↔
      name = "Addressable" ∨ name = "ContractRunner" ∨
      name ∈ ["AddressLike", "BytesLike"] ∧
        (∃ s, IsLast (Signature.ofDocument d) s ∧ ∃ type ∈ s.types, type.IsSpelled name) ∨
      name = "ContractTransaction" ∧
        ∃ s, IsLast (Signature.ofDocument d) s ∧ s.returns = .transaction := by
  rw [mem_importedTypes_cons_iff]
  refine or_congr_right (or_congr_right ?_)
  simp only [mem_members_iff, mem_memberImports_iff]
  constructor
  · rintro ⟨s, hs, ⟨p, hp, himport⟩ | ⟨hreturns, rfl⟩⟩
    · have hname := HostType.import?_mem himport
      refine Or.inl ⟨hname, s, hs, p.type, ?_, (HostType.import?_eq_some_iff hname).mp himport⟩
      exact List.mem_append_left _ (List.mem_map_of_mem hp)
    · exact Or.inr ⟨rfl, s, hs, hreturns⟩
  · rintro (⟨hname, s, hs, type, htype, hspelled⟩ | ⟨rfl, s, hs, hreturns⟩)
    · have himport := (HostType.import?_eq_some_iff hname).mpr hspelled
      rcases List.mem_append.mp htype with htype | htype
      · obtain ⟨p, hp, rfl⟩ := List.mem_map.mp htype
        exact ⟨s, hs, Or.inl ⟨p, hp, himport⟩⟩
      · rw [Signature.import?_returns hs.mem htype] at himport
        cases himport
    · exact ⟨s, hs, Or.inr ⟨hreturns, rfl⟩⟩

/-- What only an overwritten function used is not imported. -/
example :
    importedTypes (members
      [⟨"f", [⟨"to", .addressLike⟩], .transaction, .nonpayable, "f(address)", []⟩,
        ⟨"f", [⟨"data", .array .bytesLike⟩], .bare .bool, .view, "f(bytes[])", []⟩]) =
      ["Addressable", "BytesLike", "ContractRunner"] := by decide

/-- The types that a module imports are in order, and they are those that the last functions of the names
use. -/
structure ImportsUsed (signatures : List Signature) (types : List String) : Prop where
  ordered : types.Pairwise fun m n => m < n
  mem_iff : ∀ name, name ∈ types ↔
    name = "Addressable" ∨ name = "ContractRunner" ∨
    name ∈ ["AddressLike", "BytesLike"] ∧
      (∃ s, IsLast signatures s ∧ ∃ type ∈ s.types, type.IsSpelled name) ∨
    name = "ContractTransaction" ∧ ∃ s, IsLast signatures s ∧ s.returns = .transaction
  complete : ∀ s, IsLast signatures s → ∀ type ∈ s.types,
    ∃ name, type.IsSpelled name ∧ (name ∈ HostType.builtIn ∨ name ∈ types)

theorem importsUsed_members (d : Abi.Document) :
    ImportsUsed (Signature.ofDocument d) (importedTypes (members (Signature.ofDocument d))) := by
  have hordered : importable.Pairwise fun m n => m < n := by decide
  refine ⟨hordered.filter _, mem_importedTypes_iff d, fun s hs type htype => ?_⟩
  obtain ⟨name, hname, hknown⟩ := type.exists_isSpelled
  refine ⟨name, hname, hknown.imp_right fun himport => ?_⟩
  exact (mem_importedTypes_iff d name).mpr
    (Or.inr (Or.inr (Or.inl ⟨HostType.import?_mem himport, s, hs, type, htype, hname⟩)))

/--
**A module imports what it uses.**  Its second paragraph imports `Contract` and the types that the last
function of each name uses, whatever the overwritten functions would have used.
-/
theorem render_imports (dialect : Dialect) (contract : String) (d d' : Abi.Document) :
    ∃ types : List String,
      ImportsUsed (Signature.ofDocument d') types ∧
      (BindingModule.render dialect contract d (Signature.ofDocument d')).source =
        banner contract ++ "\n"
          ++ ("import \x7b " ++ joined ", " ("Contract" :: types.map fun type => "type " ++ type)
            ++ " \x7d from " ++ quoted dialect.runtimeModule ++ "\n")
          ++ "\n" ++ abiConstant (sanitize contract) (abiLiteral d)
          ++ "\n" ++ contractType (sanitize contract) (members (Signature.ofDocument d'))
          ++ "\n" ++ factory (sanitize contract) (parameterName dialect.runnerParameter 0) :=
  ⟨_, importsUsed_members d', rfl⟩

end Binding

end ContractBindings
