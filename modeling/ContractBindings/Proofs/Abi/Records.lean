import Mathlib
import ContractBindings.Abi.Decode
import ContractBindings.Proofs.Json.Readers

/-!
# Records

Arguments and entries are records, which are read member by member into a draft.  A record names its fields:
each of them has a key, a reader for its value, and a place in the draft.

* `exists_fillAll_iff`: members are read if every value at a key that the record names can be read;
* `fillAll_sets_iff`: a place of the draft is filled if its key is there;
* `toOption_fillAll_perm`, `toOption_fillAll_foreign`, `toOption_fillAll_congr`: the order of the members does
  not matter, nor do members that the record does not name, nor how values are written that are read as the
  same;
* `toOption_readArgument`, `toOption_readEventParameter`, `toOption_ofJson_object`, `toOption_ofJson_array`:
  arguments, parameters and entries are read in this way, from objects and from arrays.
-/

set_option autoImplicit false

namespace ContractBindings.Abi

open Json

/-! ## Fields of records -/

/-- A field of a record that is read into a draft: how its value is read, and where it is put. -/
structure RecordField (δ : Type) where
  {Value : Type}
  read : Json → Except ShapeError Value
  put : Value → δ → δ

/-- The fields of a record, by their keys. -/
abbrev RecordFields (δ : Type) := String → Option (RecordField δ)

section Records

variable {δ : Type} {fields : RecordFields δ} {ms ms' : List (String × Json)} {d d' : δ} {key : String}
  {v v' : Json}

/-- Reads a member of a record.  One that the record does not name is passed over. -/
def fillMember (fields : RecordFields δ) (d : δ) (m : String × Json) : Except ShapeError δ :=
  match fields m.1 with
  | some f => (f.read m.2).map fun x => f.put x d
  | none => .ok d

/-- Reads members one by one. -/
def fillAll (fields : RecordFields δ) (ms : List (String × Json)) (d : δ) : Except ShapeError δ :=
  ms.foldlM (fillMember fields) d

theorem fillAll_cons (m : String × Json) (ms : List (String × Json)) (d : δ) :
    fillAll fields (m :: ms) d = fillMember fields d m >>= fillAll fields ms :=
  List.foldlM_cons

/-- Reading a member passes it over, or puts what is read. -/
theorem fillMember_cases {m : String × Json} (h : fillMember fields d m = .ok d') :
    fields m.1 = none ∧ d' = d ∨ ∃ f x, fields m.1 = some f ∧ f.read m.2 = .ok x ∧ d' = f.put x d := by
  unfold fillMember at h
  split at h
  · rename_i f hf
    cases hx : f.read m.2 with
    | error e =>
      rw [hx] at h
      cases h
    | ok x =>
      rw [hx] at h
      cases h
      exact .inr ⟨f, x, hf, hx, rfl⟩
  · rename_i hnone
    cases h
    exact .inl ⟨hnone, rfl⟩

/-- A value that a record can take at a key. -/
def IsTaken (fields : RecordFields δ) (m : String × Json) : Prop :=
  ∀ f, fields m.1 = some f → ∃ x, f.read m.2 = .ok x

theorem exists_fillMember_iff {m : String × Json} :
    (∃ d', fillMember fields d m = .ok d') ↔ IsTaken fields m := by
  constructor
  · rintro ⟨d', hm⟩ f hf
    rcases fillMember_cases hm with ⟨hnone, -⟩ | ⟨g, x, hg, hx, -⟩
    · rw [hf] at hnone
      cases hnone
    · rw [hf] at hg
      cases hg
      exact ⟨x, hx⟩
  · intro h
    unfold fillMember
    split
    · rename_i f hf
      obtain ⟨x, hx⟩ := h f hf
      exact ⟨f.put x d, by rw [hx]; rfl⟩
    · exact ⟨d, rfl⟩

/-- **Members are read if every value at a key that the record names can be read.** -/
theorem exists_fillAll_iff (d : δ) :
    (∃ d', fillAll fields ms d = .ok d') ↔ ∀ m ∈ ms, IsTaken fields m := by
  induction ms generalizing d with
  | nil => exact ⟨fun _ m hm => absurd hm List.not_mem_nil, fun _ => ⟨d, rfl⟩⟩
  | cons m ms ih =>
    simp only [fillAll_cons, bind_eq_ok, List.forall_mem_cons]
    constructor
    · rintro ⟨d', d₁, hm, hms⟩
      exact ⟨exists_fillMember_iff.mp ⟨d₁, hm⟩, (ih d₁).mp ⟨d', hms⟩⟩
    · rintro ⟨hm, hms⟩
      obtain ⟨d₁, hd₁⟩ := exists_fillMember_iff.mpr hm
      obtain ⟨d', hd'⟩ := (ih d₁).mpr hms
      exact ⟨d', d₁, hd₁, hd'⟩

/-- A part of the draft that the field of one key fills, and no other field touches. -/
structure IsPartAt (fields : RecordFields δ) (key : String) (filled : δ → Prop) : Prop where
  set : ∃ f, fields key = some f ∧ ∀ x d, filled (f.put x d)
  keep : ∀ k f, k ≠ key → fields k = some f → ∀ x d, filled (f.put x d) ↔ filled d

/-- **A part of the draft is filled if its key is there.** -/
theorem fillAll_sets_iff {filled : δ → Prop} (h : IsPartAt fields key filled)
    (hread : fillAll fields ms d = .ok d') : filled d' ↔ filled d ∨ key ∈ ms.map Prod.fst := by
  induction ms generalizing d with
  | nil =>
    cases hread
    simp
  | cons m ms ih =>
    rw [fillAll_cons] at hread
    obtain ⟨d₁, hm, hms⟩ := bind_eq_ok.mp hread
    rw [ih hms, List.map_cons, List.mem_cons]
    have hstep : filled d₁ ↔ filled d ∨ key = m.1 := by
      obtain ⟨f, hf, hset⟩ := h.set
      rcases fillMember_cases hm with ⟨hnone, rfl⟩ | ⟨g, x, hg, -, rfl⟩
      · have hne : key ≠ m.1 := by
          rintro rfl
          rw [hf] at hnone
          cases hnone
        simp [hne]
      · by_cases hkey : m.1 = key
        · rw [hkey, hf] at hg
          cases hg
          simp [hset, hkey]
        · simp [h.keep m.1 g hkey hg, Ne.symm hkey]
    rw [hstep, or_assoc]

/-- A record has a value if its members can be taken, and the field is there without which it has none. -/
theorem exists_of_members_iff {α : Type} {filled : δ → Prop} {finish? : δ → Option α}
    (hpart : IsPartAt fields key filled) (hfinish : ∀ d, (∃ a, finish? d = some a) ↔ filled d)
    (hstart : ¬ filled d) (ms : List (String × Json)) :
    (∃ a, (fillAll fields ms d).toOption.bind finish? = some a) ↔
      (∀ m ∈ ms, IsTaken fields m) ∧ key ∈ ms.map Prod.fst := by
  simp only [Option.bind_eq_some_iff, toOption_eq_some_iff]
  rw [← exists_fillAll_iff d]
  constructor
  · rintro ⟨a, d, hd, ha⟩
    have hfilled := (hfinish d).mp ⟨a, ha⟩
    exact ⟨⟨d, hd⟩, ((fillAll_sets_iff hpart hd).mp hfilled).resolve_left hstart⟩
  · rintro ⟨⟨d, hd⟩, hkey⟩
    obtain ⟨a, ha⟩ := (hfinish d).mpr ((fillAll_sets_iff hpart hd).mpr (.inr hkey))
    exact ⟨a, d, hd, ha⟩

/-! ## What does not matter -/

/-- Goes on with a member, unless something could not be read before. -/
def fill? (fields : RecordFields δ) (d : Option δ) (m : String × Json) : Option δ :=
  d.bind fun d => (fillMember fields d m).toOption

theorem toOption_fillAll (ms : List (String × Json)) (d : δ) :
    (fillAll fields ms d).toOption = ms.foldl (fill? fields) (some d) := by
  have hstop : ∀ ms : List (String × Json), ms.foldl (fill? fields) none = none := by
    intro ms
    induction ms with
    | nil => rfl
    | cons m ms ih => exact ih
  induction ms generalizing d with
  | nil => rfl
  | cons m ms ih =>
    rw [fillAll_cons, toOption_bind, List.foldl_cons]
    cases hm : fillMember fields d m with
    | error e =>
      have hnone : fill? fields (some d) m = none := by simp [fill?, hm, Except.toOption]
      rw [hnone, hstop]
      rfl
    | ok d₁ =>
      have hsome : fill? fields (some d) m = some d₁ := by simp [fill?, hm, Except.toOption]
      rw [hsome, ← ih]
      rfl

/-- What different keys fill is put in different places. -/
def AreApart (fields : RecordFields δ) : Prop :=
  ∀ k k' f g, k ≠ k' → fields k = some f → fields k' = some g →
    ∀ x y d, f.put x (g.put y d) = g.put y (f.put x d)

theorem fill?_comm (h : AreApart fields) {m m' : String × Json} (hkeys : m.1 ≠ m'.1) (d : Option δ) :
    fill? fields (fill? fields d m) m' = fill? fields (fill? fields d m') m := by
  cases d with
  | none => rfl
  | some d =>
    cases hf : fields m.1 with
    | none => simp [fill?, fillMember, hf, Except.toOption]
    | some f =>
      cases hg : fields m'.1 with
      | none => simp [fill?, fillMember, hf, hg, Except.toOption]
      | some g =>
        -- both orders fail, or both put the same two values
        cases hx : f.read m.2 with
        | error e =>
          cases hy : g.read m'.2 <;> simp [fill?, fillMember, hf, hg, hx, hy, Except.toOption, Except.map]
        | ok x =>
          cases hy : g.read m'.2 with
          | error e => simp [fill?, fillMember, hf, hg, hx, hy, Except.toOption, Except.map]
          | ok y =>
            simp [fill?, fillMember, hf, hg, hx, hy, Except.toOption, Except.map, h _ _ f g hkeys hf hg]

/-- **The order of members does not matter**, if no key is repeated. -/
theorem toOption_fillAll_perm (h : AreApart fields) (hkeys : (ms.map Prod.fst).Nodup) (hperm : ms.Perm ms')
    (d : δ) : (fillAll fields ms d).toOption = (fillAll fields ms' d).toOption := by
  rw [toOption_fillAll, toOption_fillAll]
  refine hperm.foldl_eq' (fun m hm m' hm' d => ?_) _
  by_cases hsame : m.1 = m'.1
  · rw [List.inj_on_of_nodup_map hkeys hm hm' hsame]
  · exact fill?_comm h hsame d

/-- **A member that the record does not name is passed over.** -/
theorem toOption_fillAll_foreign (h : fields key = none) (v : Json) (ms ms' : List (String × Json)) (d : δ) :
    (fillAll fields (ms ++ (key, v) :: ms') d).toOption = (fillAll fields (ms ++ ms') d).toOption := by
  have hskip : ∀ d, fill? fields d (key, v) = d := by
    intro d
    cases d <;> simp [fill?, fillMember, h, Except.toOption]
  rw [toOption_fillAll, toOption_fillAll, List.foldl_append, List.foldl_append, List.foldl_cons, hskip]

/-- **Values that are read as the same can stand for each other.** -/
theorem toOption_fillAll_congr
    (h : ∀ f, fields key = some f → (f.read v).toOption = (f.read v').toOption) (ms ms' : List (String × Json))
    (d : δ) : (fillAll fields (ms ++ (key, v) :: ms') d).toOption =
      (fillAll fields (ms ++ (key, v') :: ms') d).toOption := by
  have hstep : ∀ d, fill? fields d (key, v) = fill? fields d (key, v') := by
    intro d
    cases d with
    | none => rfl
    | some d =>
      cases hf : fields key with
      | none => simp [fill?, fillMember, hf]
      | some f => simp [fill?, fillMember, hf, toOption_map, h f hf]
  rw [toOption_fillAll, toOption_fillAll, List.foldl_append, List.foldl_append, List.foldl_cons,
    List.foldl_cons, hstep]

/-- The same holds of the elements of an array, which stand for members in the order of the keys. -/
theorem toOption_fillAll_zip_congr {keys : List String} {xs : List Json}
    (h : ∀ key, keys[xs.length]? = some key → ∀ f, fields key = some f →
      (f.read v).toOption = (f.read v').toOption) (ys : List Json) (d : δ) :
    (fillAll fields (keys.zip (xs ++ v :: ys)) d).toOption =
      (fillAll fields (keys.zip (xs ++ v' :: ys)) d).toOption := by
  have hlength : (keys.take xs.length).length = min xs.length keys.length := List.length_take
  rw [← List.take_append_drop xs.length keys]
  cases hkey : keys.drop xs.length with
  | nil =>
    -- the element stands behind the last key
    have hshort : keys.length ≤ xs.length := List.drop_eq_nil_iff.mp hkey
    rw [List.append_nil, List.take_of_length_le hshort]
    have hcut : ∀ zs : List Json, keys.zip (xs ++ zs) = keys.zip xs := by
      intro zs
      rw [(List.zip_eq_zip_take_min : keys.zip (xs ++ zs) = _),
        (List.zip_eq_zip_take_min : keys.zip xs = _), List.length_append, Nat.min_eq_left hshort,
        Nat.min_eq_left (by omega), List.take_append_of_le_length hshort]
    rw [hcut, hcut]
  | cons key rest =>
    have hlt : xs.length < keys.length := by
      by_contra hle
      rw [List.drop_eq_nil_of_le (by omega)] at hkey
      cases hkey
    have hat : keys[xs.length]? = some key := by
      rw [← List.head?_drop, hkey]
      rfl
    rw [List.zip_append (by omega), List.zip_append (by omega), List.zip_cons_cons, List.zip_cons_cons]
    exact toOption_fillAll_congr (h key hat) _ _ d

end Records

/-! ## Arguments -/

/-- The keys of an argument, in their order of declaration. -/
def argumentKeys : List String := ["type", "name", "internalType", "components"]

def argumentRecord (key : String) : Option (RecordField ArgumentDraft) :=
  if key = "type" then some ⟨readString, fun s d => { d with type := some s }⟩
  else if key = "name" then some ⟨readString, fun s d => { d with name := s }⟩
  else if key = "internalType" then some ⟨readString, fun s d => { d with internalType := s }⟩
  else if key = "components" then some ⟨readArguments, fun as d => { d with components := as }⟩
  else none

theorem argumentRecord_eq_none_iff {key : String} : argumentRecord key = none ↔ key ∉ argumentKeys := by
  unfold argumentRecord argumentKeys
  split_ifs <;> simp_all

theorem areApart_argumentRecord : AreApart argumentRecord := by
  intro k k' f g hne hf hg
  unfold argumentRecord at hf hg
  split_ifs at hf <;> cases hf <;> split_ifs at hg <;> cases hg <;>
    first
    | exact fun _ _ _ => rfl
    | exact absurd (by simp_all) hne

theorem readArgumentList_eq (xs : List Json) : readArgumentList xs = xs.mapM readArgument := by
  induction xs with
  | nil => rw [readArgumentList]; rfl
  | cons x xs ih => rw [readArgumentList, List.mapM_cons, ih]; rfl

theorem readArgumentField_eq (d : ArgumentDraft) (key : String) (v : Json) :
    readArgumentField d key v = fillMember argumentRecord d (key, v) := by
  unfold fillMember argumentRecord
  cases v with
  | array xs =>
    rw [readArgumentField, readArgumentList_eq]
    split_ifs <;> simp_all [Except.map, readString, readArguments, readList, found]
    · cases xs.mapM readArgument <;> rfl
  | _ =>
    rw [readArgumentField]
    split_ifs <;> simp_all [Except.map, readArguments, readList]
    simp

theorem readArgumentMembers_eq (d : ArgumentDraft) (ms : List (String × Json)) :
    readArgumentMembers d ms = fillAll argumentRecord ms d := by
  induction ms generalizing d with
  | nil => rw [readArgumentMembers]; rfl
  | cons m ms ih =>
    obtain ⟨key, v⟩ := m
    rw [readArgumentMembers, fillAll_cons, readArgumentField_eq]
    exact congrArg _ (funext ih)

/-- The elements stand for the members of an argument; those behind the fourth are passed over. -/
theorem readArgumentElements_eq (xs : List Json) (index : Nat) (d : ArgumentDraft) :
    readArgumentElements d index xs = fillAll argumentRecord ((argumentKeys.drop index).zip xs) d := by
  induction xs generalizing index d with
  | nil =>
    rw [readArgumentElements, List.zip_nil_right]
    rfl
  | cons x xs ih =>
    have hstep : ∀ key : String,
        (readArgumentField d key x >>= fun d => readArgumentElements d (index + 1) xs) =
          fillMember argumentRecord d (key, x) >>=
            fillAll argumentRecord ((argumentKeys.drop (index + 1)).zip xs) := by
      intro key
      rw [readArgumentField_eq]
      exact congrArg _ (funext fun d => ih (index + 1) d)
    rcases index with _ | _ | _ | _ | index
    · exact hstep "type"
    · exact hstep "name"
    · exact hstep "internalType"
    · exact hstep "components"
    · have hforeign : fillMember argumentRecord d ("", x) = .ok d := rfl
      have hdrop : argumentKeys.drop (index + 4 + 1) = [] := List.drop_eq_nil_of_le (by simp [argumentKeys])
      refine (hstep "").trans ?_
      rw [hforeign, hdrop, List.drop_eq_nil_of_le (by simp [argumentKeys])]
      rfl

/-- The members of a record that is written as an object, or as an array of the values of its first keys. -/
def membersOf? (keys : List String) : Json → Option (List (String × Json))
  | .object ms => some ms
  | .array xs => if xs.length ≤ keys.length then some (keys.zip xs) else none
  | _ => none

def argumentOf? (ms : List (String × Json)) : Option Argument :=
  (fillAll argumentRecord ms {}).toOption.bind fun d => d.finish.toOption

/-- **What is read as an argument are its members.** -/
theorem toOption_readArgument (v : Json) :
    (readArgument v).toOption = (membersOf? argumentKeys v).bind argumentOf? := by
  cases v with
  | object ms =>
    rw [readArgument, readArgumentMembers_eq, toOption_bind]
    rfl
  | array xs =>
    have hlength : argumentKeys.length = argumentFields := rfl
    rw [readArgument, readArgumentElements_eq, List.drop_zero, toOption_bind, membersOf?, hlength]
    by_cases hfits : xs.length ≤ argumentFields
    · simp only [if_pos hfits, Option.bind_some, argumentOf?]
      refine congrArg _ (funext fun d => ?_)
      unfold ArgumentDraft.finish
      cases d.type <;> rfl
    · simp only [if_neg hfits, Option.bind_none]
      refine Option.bind_eq_none_iff.mpr fun d _ => ?_
      cases d.type <;> rfl
  | _ => rfl

/-- The mark of a parameter with these members. -/
def indexedOf? (ms : List (String × Json)) : Option Bool :=
  (Fields.get? "indexed" ms).elim (some false) fun v => (readBool v).toOption

theorem toOption_readEventParameter (ms : List (String × Json)) :
    (readEventParameter (.object ms)).toOption =
      (indexedOf? ms).bind fun indexed => (argumentOf? ms).map fun argument => ⟨argument, indexed⟩ := by
  have hrest : ∀ indexed : Bool,
      (readArgumentMembers {} ms >>= fun d => d.finish >>= fun argument =>
        (.ok ⟨argument, indexed⟩ : Except ShapeError EventParameter)).toOption =
      (argumentOf? ms).map fun argument => ⟨argument, indexed⟩ := by
    intro indexed
    rw [toOption_bind, readArgumentMembers_eq, argumentOf?, Option.map_bind]
    refine congrArg _ (funext fun d => ?_)
    rw [toOption_bind, Function.comp_apply, Option.map_eq_bind]
    rfl
  rw [readEventParameter, indexedOf?]
  cases Fields.get? "indexed" ms with
  | none => exact hrest false
  | some v => exact (toOption_bind _ _).trans (congrArg _ (funext hrest))

/-! ## Entries -/

/-- How the field of an entry is read. -/
def ItemField.record : ItemField → RecordField ItemDraft
  | name => ⟨readString, fun s d => { d with name := some s }⟩
  | inputs => ⟨readArguments, fun xs d => { d with inputs := xs }⟩
  | outputs => ⟨readArguments, fun xs d => { d with outputs := xs }⟩
  | parameters => ⟨readList readEventParameter, fun xs d => { d with parameters := xs }⟩
  | anonymous => ⟨readBool, fun b d => { d with anonymous := b }⟩
  | mutability => ⟨readMutability, fun m d => { d with mutability := some m }⟩

theorem ItemField.read_eq (field : ItemField) (d : ItemDraft) (v : Json) :
    field.read d v = (field.record.read v).map fun x => field.record.put x d := by
  cases field <;> rfl

namespace ItemKind

/-- The field of a kind at a key. -/
def fieldAt? (kind : ItemKind) (key : String) : Option ItemField :=
  kind.fields.find? fun field => field.key == key

def entryRecord (kind : ItemKind) (key : String) : Option (RecordField ItemDraft) :=
  (kind.fieldAt? key).map ItemField.record

/-- The keys of a kind, in the order in which its fields are declared. -/
def keys (kind : ItemKind) : List String := kind.fields.map ItemField.key

variable {kind : ItemKind} {key : String}

theorem key_of_fieldAt? {field : ItemField} (h : kind.fieldAt? key = some field) : field.key = key := by
  simpa using List.find?_some h

/-- No two fields of a kind have one key. -/
theorem fieldAt?_key {field : ItemField} (h : field ∈ kind.fields) :
    kind.fieldAt? field.key = some field := by
  have hall : ∀ kind : ItemKind, ∀ field ∈ kind.fields, kind.fieldAt? field.key = some field := by
    intro kind
    cases kind <;> decide
  exact hall kind field h

theorem areApart_entryRecord (kind : ItemKind) : AreApart kind.entryRecord := by
  intro k k' f g hne hf hg
  obtain ⟨field, hfield, rfl⟩ := Option.map_eq_some_iff.mp hf
  obtain ⟨field', hfield', rfl⟩ := Option.map_eq_some_iff.mp hg
  have hkey := key_of_fieldAt? hfield
  have hkey' := key_of_fieldAt? hfield'
  cases field <;> cases field' <;>
    first
    | exact fun _ _ _ => rfl
    | exact absurd (hkey.symm.trans hkey') hne

theorem fillMember_entryRecord {field : ItemField} (h : kind.fieldAt? key = some field) (d : ItemDraft)
    (v : Json) : fillMember kind.entryRecord d (key, v) = field.read d v := by
  simp [fillMember, entryRecord, h, field.read_eq]

theorem readMembers_eq (kind : ItemKind) (ms : List (String × Json)) :
    kind.readMembers ms = fillAll kind.entryRecord ms {} := by
  refine congrArg (fun step => List.foldlM step ({} : ItemDraft) ms) (funext fun d => funext fun m => ?_)
  obtain ⟨key, v⟩ := m
  simp only [fillMember, entryRecord, fieldAt?]
  cases kind.fields.find? fun field => field.key == key with
  | none => rfl
  | some field => exact field.read_eq d v

/-- The elements stand for the members of an entry; those behind the last field are passed over. -/
theorem readElements_eq (kind : ItemKind) (xs : List Json) :
    kind.readElements xs = fillAll kind.entryRecord (kind.keys.zip xs) {} := by
  have hall : ∀ fields : List ItemField, (∀ field ∈ fields, field ∈ kind.fields) →
      ∀ (xs : List Json) (d : ItemDraft),
        (fields.zip xs).foldlM (fun d m => m.1.read d m.2) d =
          fillAll kind.entryRecord ((fields.map ItemField.key).zip xs) d := by
    intro fields
    induction fields with
    | nil => intro _ xs d; rfl
    | cons field fields ih =>
      intro hfields xs d
      cases xs with
      | nil => rfl
      | cons x xs =>
        obtain ⟨hfield, hfields⟩ := List.forall_mem_cons.mp hfields
        have hstep : field.read d x = fillMember kind.entryRecord d (field.key, x) := by
          rw [fillMember_entryRecord (fieldAt?_key hfield)]
        rw [List.map_cons, List.zip_cons_cons, List.zip_cons_cons, fillAll_cons, ← hstep, List.foldlM_cons]
        exact congrArg _ (funext fun d => ih hfields xs d)
  exact hall kind.fields (fun _ h => h) xs {}

/-- The entry of a kind with the fields that have been read, if its name is there when it has one. -/
def finish? (kind : ItemKind) (d : ItemDraft) : Option Item :=
  (kind.finish (.missingField "name") d).toOption

theorem toOption_finish (kind : ItemKind) (missing : ShapeError) (d : ItemDraft) :
    (kind.finish missing d).toOption = kind.finish? d := by
  unfold finish? finish
  cases kind <;> cases d.name <;> rfl

def ofMembers? (kind : ItemKind) (ms : List (String × Json)) : Option Item :=
  (fillAll kind.entryRecord ms {}).toOption.bind kind.finish?

theorem toOption_ofMembers (kind : ItemKind) (ms : List (String × Json)) :
    (kind.ofMembers ms).toOption = kind.ofMembers? ms := by
  rw [ofMembers, toOption_bind, readMembers_eq]
  rfl

theorem toOption_ofElements (kind : ItemKind) (xs : List Json) :
    (kind.ofElements xs).toOption = (membersOf? kind.keys (.array xs)).bind kind.ofMembers? := by
  have hlength : kind.keys.length = kind.fields.length := List.length_map _
  rw [ofElements, toOption_bind, readElements_eq, membersOf?, hlength]
  by_cases hfits : xs.length ≤ kind.fields.length
  · simp only [if_pos hfits, Option.bind_some, toOption_bind, toOption_finish, ofMembers?]
    refine congrArg _ (funext fun d => ?_)
    cases kind.finish? d <;> rfl
  · simp only [if_neg hfits, Option.bind_none, toOption_bind]
    refine Option.bind_eq_none_iff.mpr fun d _ => ?_
    exact Option.bind_eq_none_iff.mpr fun item _ => rfl

end ItemKind

namespace Item

/-- What an entry with a tag is read as: `known` says it for every kind, `unknown` for other tags. -/
def tagged? (known : ItemKind → Option Item) (unknown : Option Item) (tag : String) : Option Item :=
  (ItemKind.ofTag? tag).elim unknown known

/-- The tag of an entry with these members. -/
def tagOf? (ms : List (String × Json)) : Option String :=
  (Fields.get? "type" ms).bind fun v => (readTag v).toOption

/-- **The tag of an object says how its members are read.** -/
theorem toOption_ofJson_object (ms : List (String × Json)) :
    (ofJson (.object ms)).toOption =
      (tagOf? ms).bind (tagged? (fun kind => kind.ofMembers? ms) (some .unknown)) := by
  rw [ofJson, tagOf?]
  cases Fields.get? "type" ms with
  | none => rfl
  | some v =>
    simp only [toOption_bind, Option.bind_some]
    refine congrArg _ (funext fun tag => ?_)
    unfold tagged?
    cases ItemKind.ofTag? tag with
    | none => rfl
    | some kind => exact kind.toOption_ofMembers ms

/-- **The first element of an array says how those behind it are read.** -/
theorem toOption_ofJson_array (v : Json) (xs : List Json) :
    (ofJson (.array (v :: xs))).toOption = (readTag v).toOption.bind
      (tagged? (fun kind => (membersOf? kind.keys (.array xs)).bind kind.ofMembers?)
        (if xs.isEmpty then some .unknown else none)) := by
  rw [ofJson, toOption_bind]
  refine congrArg _ (funext fun tag => ?_)
  unfold tagged?
  cases ItemKind.ofTag? tag with
  | none => cases xs <;> rfl
  | some kind => exact kind.toOption_ofElements xs

end Item

end ContractBindings.Abi
