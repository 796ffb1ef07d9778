import Mathlib
import ContractBindings.Proofs.Abi.Records
import ContractBindings.Signature

/-!
# The shape of a function

A function is an object with the tag `function`, a name, lists of arguments and a word for its mutability;
an argument is an object with a type, and with a list of arguments if it is a tuple.  Records are also read
from arrays of the values of their first fields, and a mutability from an object whose only key is the word.
The shapes here say which of these other forms are allowed.

* `exists_readArgument_iff`: the values that are read as arguments are those that have the shape of one,
  however deep their components nest;
* `exists_function_iff`: the entries that are read as functions are those that have the shape of one;
* `signatures_of_shapes`: so the entries of this shape, and no others, have signatures, and all entries keep
  their places;
* `not_isFunction_of_forms`: the other forms are no objects with these members.
-/

set_option autoImplicit false

namespace ContractBindings.Abi

open Json

/-! ## Shapes -/

def IsText (v : Json) : Prop := ∃ s, v = .string s

/-- A list of values that have a property. -/
def IsListOf (P : Json → Prop) (v : Json) : Prop := ∃ xs, v = .array xs ∧ ∀ x ∈ xs, P x

section Forms

-- whether records may be written as arrays, and mutabilities as objects
variable (others : Prop)

/-- The members of a record: those of an object, or the first keys with the elements of an array. -/
def HasMembers (keys : List String) (v : Json) (ms : List (String × Json)) : Prop :=
  v = .object ms ∨ others ∧ ∃ xs, v = .array xs ∧ xs.length ≤ keys.length ∧ ms = keys.zip xs

/-- The shape of an argument: a type, and the other fields as far as they are present. -/
inductive IsArgument : Json → Prop where
  | record {v : Json} {ms : List (String × Json)} (members : HasMembers others argumentKeys v ms)
    (typed : "type" ∈ ms.map Prod.fst)
    (texts : ∀ key ∈ ["type", "name", "internalType"], ∀ w, (key, w) ∈ ms → IsText w)
    (lists : ∀ w, ("components", w) ∈ ms → ∃ xs, w = .array xs)
    (components : ∀ xs, ("components", .array xs) ∈ ms → ∀ x ∈ xs, IsArgument x) : IsArgument v

def mutabilityWords : List String := ["pure", "view", "constant", "nonpayable", "payable"]

/-- The shape of a mutability: a word, or an object with the word as its only key and an empty value. -/
def IsMutability (v : Json) : Prop :=
  ∃ word ∈ mutabilityWords, v = .string word ∨
    others ∧ (v = .object [(word, .null)] ∨ v = .object [(word, .object [])])

def functionKeys : List String := ["name", "inputs", "outputs", "stateMutability"]

/-- The members of an entry with the tag `function`. -/
def HasFunctionMembers (v : Json) (ms : List (String × Json)) : Prop :=
  (v = .object ms ∧ Fields.get? "type" ms = some (.string "function")) ∨
    others ∧ ∃ xs, v = .array (.string "function" :: xs) ∧ HasMembers others functionKeys (.array xs) ms

/-- The shape of the members of a function: a name, and the other fields as far as they are present. -/
structure AreFunctionMembers (ms : List (String × Json)) : Prop where
  named : "name" ∈ ms.map Prod.fst
  name : ∀ w, ("name", w) ∈ ms → IsText w
  inputs : ∀ w, ("inputs", w) ∈ ms → IsListOf (IsArgument others) w
  outputs : ∀ w, ("outputs", w) ∈ ms → IsListOf (IsArgument others) w
  mutability : ∀ w, ("stateMutability", w) ∈ ms → IsMutability others w

/-- The shape of a function. -/
def IsFunction (v : Json) : Prop :=
  ∃ ms, HasFunctionMembers others v ms ∧ AreFunctionMembers others ms

end Forms

/-! ## Values of fields -/

theorem exists_readString_iff {v : Json} : (∃ s, readString v = .ok s) ↔ IsText v := by
  cases v <;> simp [readString, IsText]

theorem exists_readList_iff {α : Type} {item : Json → Except ShapeError α} {v : Json} :
    (∃ as, readList item v = .ok as) ↔ IsListOf (fun x => ∃ a, item x = .ok a) v := by
  cases v with
  | array xs => simp [readList, IsListOf, exists_mapM_iff]
  | _ => simp [readList, IsListOf]

theorem exists_mutabilityOfWord_iff {word : String} :
    (∃ m, mutabilityOfWord word = .ok m) ↔ word ∈ mutabilityWords := by
  have hwords : mutabilityWords = Mutability.all.map Mutability.word := rfl
  rw [hwords, List.mem_map]
  unfold mutabilityOfWord
  cases hm : Mutability.ofWord? word with
  | none => simpa [Mutability.ofWord?] using hm
  | some m =>
    have hword : m.word = word := by simpa using List.find?_some hm
    simpa using ⟨m, List.mem_of_find?_eq_some hm, hword⟩

theorem exists_readMutability_object_iff {word : String} {value : Json} :
    (∃ m, readMutability (.object [(word, value)]) = .ok m) ↔
      word ∈ mutabilityWords ∧ (value = .null ∨ value = .object []) := by
  rw [← exists_mutabilityOfWord_iff]
  simp only [readMutability, bind_eq_ok]
  constructor
  · rintro ⟨m, m', hm', hvalue⟩
    split at hvalue
    · exact ⟨⟨m', hm'⟩, .inl rfl⟩
    · exact ⟨⟨m', hm'⟩, .inr rfl⟩
    · cases hvalue
  · rintro ⟨⟨m, hm⟩, rfl | rfl⟩ <;> exact ⟨m, m, hm, rfl⟩

theorem exists_readMutability_iff {v : Json} : (∃ m, readMutability v = .ok m) ↔ IsMutability True v := by
  cases v with
  | string word => simpa [readMutability, IsMutability] using exists_mutabilityOfWord_iff
  | object ms =>
    rcases ms with _ | ⟨⟨word, value⟩, _ | ⟨m, ms⟩⟩
    · simp [readMutability, IsMutability]
    · rw [exists_readMutability_object_iff]
      constructor
      · rintro ⟨hword, rfl | rfl⟩
        · exact ⟨word, hword, .inr ⟨trivial, .inl rfl⟩⟩
        · exact ⟨word, hword, .inr ⟨trivial, .inr rfl⟩⟩
      · rintro ⟨_, hword, h | ⟨-, h | h⟩⟩ <;> cases h
        · exact ⟨hword, .inl rfl⟩
        · exact ⟨hword, .inr rfl⟩
    · simp [readMutability, IsMutability]
  | _ => simp [readMutability, IsMutability]

/-! ## Arguments -/

theorem membersOf?_eq_some_iff {keys : List String} {v : Json} {ms : List (String × Json)} :
    membersOf? keys v = some ms ↔ HasMembers True keys v ms := by
  cases v with
  | object ns => simp [membersOf?, HasMembers]
  | array xs => simp [membersOf?, HasMembers, eq_comm]
  | _ => simp [membersOf?, HasMembers]

theorem isTaken_argumentRecord_iff {key : String} {w : Json} :
    IsTaken argumentRecord (key, w) ↔ (key ∈ ["type", "name", "internalType"] → IsText w) ∧
      (key = "components" → IsListOf (fun x => ∃ a, readArgument x = .ok a) w) := by
  unfold IsTaken argumentRecord
  rw [← exists_readString_iff, ← exists_readList_iff]
  split_ifs <;> simp_all [readArguments]

/-- The type of an argument is read if its key is there. -/
theorem isPartAt_type : IsPartAt argumentRecord "type" fun d => d.type.isSome := by
  refine ⟨⟨_, rfl, fun _ _ => rfl⟩, fun key f hkey hf => ?_⟩
  unfold argumentRecord at hf
  split_ifs at hf <;> cases hf
  · contradiction
  all_goals exact fun _ _ => Iff.rfl

/-- What is read as an argument has members that it can take, the type among them. -/
theorem exists_readArgument_iff_members {v : Json} :
    (∃ a, readArgument v = .ok a) ↔ ∃ ms, HasMembers True argumentKeys v ms ∧
      (∀ m ∈ ms, IsTaken argumentRecord m) ∧ "type" ∈ ms.map Prod.fst := by
  have hfinish : ∀ d : ArgumentDraft, (∃ a, d.finish.toOption = some a) ↔ d.type.isSome := by
    intro d
    unfold ArgumentDraft.finish
    cases d.type <;> simp [Except.toOption]
  have hread : ∀ ms, (∃ a, argumentOf? ms = some a) ↔
      (∀ m ∈ ms, IsTaken argumentRecord m) ∧ "type" ∈ ms.map Prod.fst :=
    exists_of_members_iff isPartAt_type hfinish (by simp)
  simp only [← toOption_eq_some_iff, toOption_readArgument, ← membersOf?_eq_some_iff, ← hread]
  constructor
  · rintro ⟨a, ha⟩
    obtain ⟨ms, hms, ha⟩ := Option.bind_eq_some_iff.mp ha
    exact ⟨ms, hms, a, ha⟩
  · rintro ⟨ms, hms, a, ha⟩
    exact ⟨a, Option.bind_eq_some_iff.mpr ⟨ms, hms, ha⟩⟩

/-- A list in an array, or in a member of an object, is smaller. -/
theorem sizeOf_lt_of_hasMembers {others : Prop} {keys : List String} {v w : Json} {ms : List (String × Json)}
    {key : String} (hms : HasMembers others keys v ms) (h : (key, w) ∈ ms) : sizeOf w < sizeOf v := by
  rcases hms with rfl | ⟨-, xs, rfl, -, rfl⟩
  · have hm := List.sizeOf_lt_of_mem h
    simp only [Prod.mk.sizeOf_spec] at hm
    simp only [Json.object.sizeOf_spec]
    omega
  · have hx := List.sizeOf_lt_of_mem (List.of_mem_zip h).2
    simp only [Json.array.sizeOf_spec]
    omega

/-- **The values that are read as arguments are those that have the shape of one.** -/
theorem exists_readArgument_iff {v : Json} : (∃ a, readArgument v = .ok a) ↔ IsArgument True v := by
  rw [exists_readArgument_iff_members]
  constructor
  · rintro ⟨ms, hms, htaken, htype⟩
    have hmem : ∀ key w, (key, w) ∈ ms → _ := fun key w hw => isTaken_argumentRecord_iff.mp (htaken _ hw)
    refine .record hms htype (fun key hkey w hw => (hmem key w hw).1 hkey) (fun w hw => ?_) fun xs hxs x hx => ?_
    · obtain ⟨xs, rfl, -⟩ := (hmem _ w hw).2 rfl
      exact ⟨xs, rfl⟩
    · obtain ⟨ys, hys, hall⟩ := (hmem _ _ hxs).2 rfl
      cases hys
      have hlist := sizeOf_lt_of_hasMembers hms hxs
      have helement := List.sizeOf_lt_of_mem hx
      simp only [Json.array.sizeOf_spec] at hlist
      have hsmaller : sizeOf x < sizeOf v := by omega
      exact exists_readArgument_iff.mp (hall x hx)
  · rintro ⟨hms, htype, htexts, hlists, hcomponents⟩
    refine ⟨_, hms, fun m hm => ?_, htype⟩
    obtain ⟨key, w⟩ := m
    refine isTaken_argumentRecord_iff.mpr ⟨fun hkey => htexts key hkey w hm, ?_⟩
    rintro rfl
    obtain ⟨xs, rfl⟩ := hlists w hm
    have hlist := sizeOf_lt_of_hasMembers hms hm
    simp only [Json.array.sizeOf_spec] at hlist
    refine ⟨xs, rfl, fun x hx => ?_⟩
    have helement := List.sizeOf_lt_of_mem hx
    have hsmaller : sizeOf x < sizeOf v := by omega
    exact exists_readArgument_iff.mpr (hcomponents xs hm x hx)
termination_by sizeOf v

/-! ## Functions -/

namespace ItemKind

/-- The name of a function is read if its key is there. -/
theorem isPartAt_name : IsPartAt function.entryRecord "name" fun d => d.name.isSome := by
  refine ⟨⟨_, rfl, fun _ _ => rfl⟩, fun key f hkey hf => ?_⟩
  obtain ⟨field, hfield, rfl⟩ := Option.map_eq_some_iff.mp hf
  have hat := key_of_fieldAt? hfield
  cases field
  · exact absurd hat.symm hkey
  all_goals exact fun _ _ => Iff.rfl

theorem isTaken_function_iff {key : String} {w : Json} :
    IsTaken function.entryRecord (key, w) ↔ (key = "name" → IsText w) ∧
      (key = "inputs" → IsListOf (IsArgument True) w) ∧ (key = "outputs" → IsListOf (IsArgument True) w) ∧
      (key = "stateMutability" → IsMutability True w) := by
  have hlist : IsListOf (IsArgument True) w ↔ ∃ as, readArguments w = .ok as := by
    simp only [readArguments, exists_readList_iff, exists_readArgument_iff]
  rw [← exists_readString_iff, hlist, ← exists_readMutability_iff]
  constructor
  · intro h
    refine ⟨?_, ?_, ?_, ?_⟩ <;> rintro rfl
    · exact h _ rfl
    · exact h _ rfl
    · exact h _ rfl
    · exact h _ rfl
  · rintro ⟨hname, hinputs, houtputs, hmutability⟩ f hf
    obtain ⟨field, hfield, rfl⟩ := Option.map_eq_some_iff.mp hf
    have hat := key_of_fieldAt? hfield
    have hmem : field ∈ function.fields := List.mem_of_find?_eq_some hfield
    simp only [fields, List.mem_cons, List.not_mem_nil, or_false] at hmem
    rcases hmem with rfl | rfl | rfl | rfl
    · exact hname hat.symm
    · exact hinputs hat.symm
    · exact houtputs hat.symm
    · exact hmutability hat.symm

/-- **The members that are read as a function are those that have the shape of a function's.** -/
theorem exists_ofMembers?_function_iff {ms : List (String × Json)} :
    (∃ item, function.ofMembers? ms = some item) ↔ AreFunctionMembers True ms := by
  have hfinish : ∀ d : ItemDraft, (∃ item, function.finish? d = some item) ↔ d.name.isSome := by
    intro d
    unfold finish? finish
    cases d.name <;> simp [Except.toOption]
  rw [ofMembers?, exists_of_members_iff isPartAt_name hfinish (by simp)]
  constructor
  · rintro ⟨htaken, hname⟩
    have hmem : ∀ key w, (key, w) ∈ ms → _ := fun key w hw => isTaken_function_iff.mp (htaken _ hw)
    exact ⟨hname, fun w hw => (hmem _ w hw).1 rfl, fun w hw => (hmem _ w hw).2.1 rfl,
      fun w hw => (hmem _ w hw).2.2.1 rfl, fun w hw => (hmem _ w hw).2.2.2 rfl⟩
  · rintro ⟨hnamed, hname, hinputs, houtputs, hmutability⟩
    refine ⟨fun m hm => ?_, hnamed⟩
    obtain ⟨key, w⟩ := m
    refine isTaken_function_iff.mpr ⟨?_, ?_, ?_, ?_⟩ <;> rintro rfl
    · exact hname w hm
    · exact hinputs w hm
    · exact houtputs w hm
    · exact hmutability w hm

/-- Only members that are read as a function become one. -/
theorem isFunction_of_ofMembers? {kind : ItemKind} {ms : List (String × Json)} {item : Item}
    (h : kind.ofMembers? ms = some item) : (∃ f, item = .function f) ↔ kind = function := by
  obtain ⟨d, -, hd⟩ := Option.bind_eq_some_iff.mp h
  unfold finish? at hd
  rw [toOption_eq_some_iff] at hd
  unfold finish at hd
  cases kind <;> cases hname : d.name <;> simp_all <;> simp [← hd]

theorem ofTag?_eq_function_iff {tag : String} : ofTag? tag = some function ↔ tag = "function" := by
  unfold ofTag?
  split_ifs <;> simp_all

end ItemKind

/-- What has a tag is read as a function if the tag says so. -/
theorem exists_tagged?_function_iff {known : ItemKind → Option Item} {unknown : Option Item}
    (hknown : ∀ kind item, known kind = some item → ((∃ f, item = .function f) ↔ kind = .function))
    (hunknown : ∀ item, unknown = some item → item = .unknown) (tag : Option String) :
    (∃ f, tag.bind (Item.tagged? known unknown) = some (.function f)) ↔
      tag = some "function" ∧ ∃ item, known .function = some item := by
  cases tag with
  | none => simp
  | some tag =>
    rw [Option.bind_some, Option.some.injEq, ← ItemKind.ofTag?_eq_function_iff]
    unfold Item.tagged?
    cases hkind : ItemKind.ofTag? tag with
    | none =>
      simp only [Option.elim_none, reduceCtorEq, false_and, iff_false]
      rintro ⟨f, hf⟩
      cases hunknown _ hf
    | some kind =>
      simp only [Option.elim_some, Option.some.injEq]
      constructor
      · rintro ⟨f, hf⟩
        have hfunction := (hknown kind _ hf).mp ⟨f, rfl⟩
        subst hfunction
        exact ⟨rfl, _, hf⟩
      · rintro ⟨rfl, item, hitem⟩
        obtain ⟨f, rfl⟩ := (hknown _ _ hitem).mpr rfl
        exact ⟨f, hitem⟩

theorem toOption_readTag_eq_some_iff {v : Json} {tag : String} :
    (readTag v).toOption = some tag ↔ v = .string tag := by
  cases v <;> simp [readTag, Except.toOption]

theorem exists_function_object_iff {ms : List (String × Json)} :
    (∃ f, (Item.ofJson (.object ms)).toOption = some (.function f)) ↔ IsFunction True (.object ms) := by
  rw [Item.toOption_ofJson_object, exists_tagged?_function_iff
    (fun kind item h => ItemKind.isFunction_of_ofMembers? h) (fun item h => (Option.some.inj h).symm),
    ItemKind.exists_ofMembers?_function_iff, Item.tagOf?, Option.bind_eq_some_iff]
  simp only [toOption_readTag_eq_some_iff, exists_eq_right]
  constructor
  · rintro ⟨htag, hms⟩
    exact ⟨ms, .inl ⟨rfl, htag⟩, hms⟩
  · rintro ⟨_, ⟨hobject, htag⟩ | ⟨-, _, harray, -⟩, hms⟩
    · cases hobject
      exact ⟨htag, hms⟩
    · cases harray

theorem exists_function_array_iff {xs : List Json} :
    (∃ f, (Item.ofJson (.array xs)).toOption = some (.function f)) ↔ IsFunction True (.array xs) := by
  cases xs with
  | nil =>
    simp [Item.ofJson, Except.toOption, IsFunction, HasFunctionMembers]
  | cons v xs =>
    have hknown : ∀ (kind : ItemKind) item,
        (membersOf? kind.keys (.array xs)).bind kind.ofMembers? = some item →
          ((∃ f, item = .function f) ↔ kind = .function) := by
      intro kind item h
      obtain ⟨ms, -, hitem⟩ := Option.bind_eq_some_iff.mp h
      exact ItemKind.isFunction_of_ofMembers? hitem
    have hunknown : ∀ item, (if xs.isEmpty then some Item.unknown else none) = some item →
        item = .unknown := by
      intro item h
      split at h <;> cases h
      rfl
    have hkeys : ItemKind.function.keys = functionKeys := rfl
    rw [Item.toOption_ofJson_array, exists_tagged?_function_iff hknown hunknown,
      toOption_readTag_eq_some_iff, hkeys]
    constructor
    · rintro ⟨rfl, item, hitem⟩
      obtain ⟨ms, hms, hitem⟩ := Option.bind_eq_some_iff.mp hitem
      exact ⟨ms, .inr ⟨trivial, xs, rfl, membersOf?_eq_some_iff.mp hms⟩,
        ItemKind.exists_ofMembers?_function_iff.mp ⟨item, hitem⟩⟩
    · rintro ⟨ms, ⟨hobject, -⟩ | ⟨-, _, harray, hmembers⟩, hms⟩
      · cases hobject
      · cases harray
        obtain ⟨item, hitem⟩ := ItemKind.exists_ofMembers?_function_iff.mpr hms
        exact ⟨rfl, item, Option.bind_eq_some_iff.mpr ⟨ms, membersOf?_eq_some_iff.mpr hmembers, hitem⟩⟩

/-- **The entries that are read as functions are those that have the shape of one.** -/
theorem exists_function_iff {v : Json} : (∃ f, Item.ofValue v = .function f) ↔ IsFunction True v := by
  have hvalue : (∃ f, Item.ofValue v = .function f) ↔
      ∃ f, (Item.ofJson v).toOption = some (.function f) := by
    unfold Item.ofValue
    cases Item.ofJson v <;> simp [Except.toOption]
  rw [hvalue]
  cases v with
  | object ms => exact exists_function_object_iff
  | array xs => exact exists_function_array_iff
  | _ => simp [Item.ofJson, Except.toOption, IsFunction, HasFunctionMembers]

/-! ## Documents -/

/-- The function in a place, if there is one. -/
def slot? (p : Item × Nat) : Option (Nat × Function) :=
  match p.1 with
  | .function f => some (p.2, f)
  | _ => none

theorem slot?_eq_some_iff {p : Item × Nat} {s : Nat × Function} :
    slot? p = some s ↔ p = (.function s.2, s.1) := by
  obtain ⟨item, i⟩ := p
  obtain ⟨j, f⟩ := s
  unfold slot?
  cases item <;> simp [and_comm]

namespace Document

def slots (d : Document) : List (Nat × Function) := d.items.zipIdx.filterMap slot?

variable {d : Document}

theorem mem_slots_iff {s : Nat × Function} : s ∈ d.slots ↔ d.items[s.1]? = some (Item.function s.2) := by
  simp only [slots, List.mem_filterMap, slot?_eq_some_iff, exists_eq_right, List.mem_zipIdx_iff_getElem?]

theorem pairwise_slots (d : Document) : (d.slots.map Prod.fst).Pairwise (· < ·) := by
  have hplaces : d.items.zipIdx.Pairwise fun p q => p.2 < q.2 := by
    rw [← List.pairwise_map (f := Prod.snd), List.zipIdx_map_snd]
    exact List.pairwise_lt_range'
  rw [List.pairwise_map]
  refine List.Pairwise.filterMap slot? (fun p q hpq s hs t ht => ?_) hplaces
  rw [slot?_eq_some_iff] at hs ht
  subst hs ht
  exact hpq

theorem ofDocument_eq_map_slots (d : Document) :
    Signature.ofDocument d = d.slots.map fun s => Signature.ofFunction s.2 := by
  have hitems : d.items = d.items.zipIdx.map Prod.fst := (List.zipIdx_map_fst 0 d.items).symm
  rw [Signature.ofDocument, slots, List.map_filterMap]
  conv_lhs => rw [hitems, List.filterMap_map]
  refine congrArg (fun g => d.items.zipIdx.filterMap g) (funext fun p => ?_)
  obtain ⟨item, i⟩ := p
  cases item <;> rfl

theorem getElem?_items {i : Nat} {v : Json} (h : d.raw[i]? = some v) :
    d.items[i]? = some (Item.ofValue v) := by
  rw [items, List.getElem?_map, h]
  rfl

/-- **Exactly the entries that have the shape of a function are functions and have signatures.**  Every entry
keeps its place, and the signatures stand in the order of the entries. -/
theorem signatures_of_shapes (d : Document) :
    d.items.length = d.raw.length ∧
      (∀ (i : Nat) (v : Json), d.raw[i]? = some v →
        ∃ item, d.items[i]? = some item ∧ ((∃ f, item = Item.function f) ↔ IsFunction True v)) ∧
      ∃ slots : List (Nat × Function), (slots.map Prod.fst).Pairwise (· < ·) ∧
        (∀ i : Nat, i ∈ slots.map Prod.fst ↔ ∃ v, d.raw[i]? = some v ∧ IsFunction True v) ∧
        (∀ s ∈ slots, d.items[s.1]? = some (Item.function s.2)) ∧
        Signature.ofDocument d = slots.map fun s => Signature.ofFunction s.2 := by
  refine ⟨d.length_items, fun i v hv => ⟨_, getElem?_items hv, exists_function_iff⟩,
    d.slots, d.pairwise_slots, fun i => ?_, fun s hs => mem_slots_iff.mp hs, d.ofDocument_eq_map_slots⟩
  constructor
  · intro hi
    obtain ⟨s, hs, rfl⟩ := List.mem_map.mp hi
    have hitem := mem_slots_iff.mp hs
    obtain ⟨v, hv, hf⟩ := Option.map_eq_some_iff.mp (List.getElem?_map.symm.trans hitem)
    exact ⟨v, hv, exists_function_iff.mp ⟨s.2, hf⟩⟩
  · rintro ⟨v, hv, hshape⟩
    obtain ⟨f, hf⟩ := exists_function_iff.mpr hshape
    exact List.mem_map.mpr ⟨(i, f), mem_slots_iff.mpr (by rw [getElem?_items hv, hf]), rfl⟩

/-- Functions in other forms: an entry and an argument that are arrays, and a mutability that is an object. -/
def otherForms : List Json :=
  [.array [.string "function", .string "f"],
    .object [("type", .string "function"), ("name", .string "f"),
      ("inputs", .array [.array [.string "uint8"]])],
    .object [("type", .string "function"), ("name", .string "f"),
      ("stateMutability", .object [("view", .null)])]]

/-- **These are read as functions, and have signatures, but not the shape of objects with texts in them.** -/
theorem not_isFunction_of_forms :
    (Signature.ofDocument ⟨otherForms⟩).length = 3 ∧
      ∀ v ∈ otherForms, (∃ f, Item.ofValue v = .function f) ∧ ¬ IsFunction False v := by
  refine ⟨rfl, ?_⟩
  simp only [otherForms, List.forall_mem_cons, List.not_mem_nil, false_implies, implies_true, and_true]
  refine ⟨⟨⟨_, rfl⟩, ?_⟩, ⟨⟨_, rfl⟩, ?_⟩, ⟨_, rfl⟩, ?_⟩
  · rintro ⟨ms, ⟨hobject, -⟩ | ⟨hfalse, -⟩, -⟩
    · cases hobject
    · exact hfalse
  · rintro ⟨ms, ⟨hobject, -⟩ | ⟨hfalse, -⟩, hms⟩
    · cases hobject
      obtain ⟨xs, hxs, hall⟩ := hms.inputs (.array [.array [.string "uint8"]]) (by simp)
      cases hxs
      cases hall _ List.mem_cons_self with
      | record hmembers =>
        rcases hmembers with hobject | ⟨hfalse, -⟩
        · cases hobject
        · exact hfalse
    · exact hfalse
  · rintro ⟨ms, ⟨hobject, -⟩ | ⟨hfalse, -⟩, hms⟩
    · cases hobject
      obtain ⟨word, -, hword | ⟨hfalse, -⟩⟩ := hms.mutability (.object [("view", .null)]) (by simp)
      · cases hword
      · exact hfalse
    · exact hfalse

end Document

end ContractBindings.Abi
