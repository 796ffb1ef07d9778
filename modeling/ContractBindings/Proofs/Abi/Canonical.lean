import ContractBindings.Proofs.Text.Joined
import ContractBindings.Signature

/-!
# Canonical spellings are unambiguous

A function is told apart from others by its name and the shapes of its parameters: a type stands for
itself, a tuple for its members and for what follows its word, such as the brackets of an array.

* `canonicalType_toList`: the spelling of a type is the spelling of its shape, names are not in it;
* `spell_unique`: a spelling says where it ends and what it was made from, whatever follows it;
* `canonical_eq_iff`: two functions have one canonical spelling exactly if they have one name and one
  list of shapes.

The names must be free of opening parentheses and the texts of types free of all delimiters: the type
`a,b` is spelled like the two types `a` and `b`.
-/

set_option autoImplicit false

namespace ContractBindings.Abi

open Text

/-! ## Shapes -/

/-- What a type is made from. -/
inductive TypeShape where
  | leaf (type : String)
  | node (members : List TypeShape) (suffix : String)
  deriving Repr, Inhabited

mutual

def Argument.shape : Argument → TypeShape
  | ⟨type, _, _, components⟩ =>
    match tupleSuffix? type with
    | some suffix => .node (shapes components) suffix
    | none => .leaf type

def shapes : List Argument → List TypeShape
  | [] => []
  | a :: rest => a.shape :: shapes rest

end

theorem shapes_eq_map (as : List Argument) : shapes as = as.map Argument.shape := by
  induction as with
  | nil => simp [shapes]
  | cons a rest ih => simp [shapes, ih]

mutual

/-- The spelling of a shape: a tuple's members stand in parentheses. -/
def TypeShape.spell : TypeShape → List Char
  | .leaf type => type.toList
  | .node members suffix => '(' :: (spellAll members ++ ')' :: suffix.toList)

/-- Shapes with commas between them. -/
def spellAll : List TypeShape → List Char
  | [] => []
  | s :: rest => s.spell ++ spellRest rest

/-- Shapes with a comma in front of each. -/
def spellRest : List TypeShape → List Char
  | [] => []
  | s :: rest => ',' :: (s.spell ++ spellRest rest)

end

theorem joined_toList_cons (s : String) (rest : List String) :
    (joined "," (s :: rest)).toList = s.toList ++ rest.flatMap fun t => ',' :: t.toList :=
  toList_joined_cons "," s rest

mutual

/-- **The spelling of a type is the spelling of its shape.** -/
theorem canonicalType_toList : ∀ a : Argument, a.canonicalType.toList = a.shape.spell
  | ⟨type, name, internalType, components⟩ => by
    unfold Argument.canonicalType Argument.shape
    cases tupleSuffix? type with
    | none => simp [TypeShape.spell]
    | some suffix =>
      have hmembers := joined_canonicalTypes_toList components
      simp [TypeShape.spell, hmembers]

theorem joined_canonicalTypes_toList : ∀ as : List Argument,
    (joined "," (canonicalTypes as)).toList = spellAll (shapes as)
  | [] => by simp [canonicalTypes, shapes, spellAll, joined]
  | a :: rest => by
    rw [canonicalTypes, shapes, spellAll, joined_toList_cons, canonicalType_toList a,
      flatMap_canonicalTypes rest]

theorem flatMap_canonicalTypes : ∀ as : List Argument,
    ((canonicalTypes as).flatMap fun t => ',' :: t.toList) = spellRest (shapes as)
  | [] => by simp [canonicalTypes, shapes, spellRest]
  | a :: rest => by
    rw [canonicalTypes, shapes, spellRest, List.flatMap_cons, canonicalType_toList a,
      flatMap_canonicalTypes rest, List.cons_append]

end

/-! ## Texts without delimiters -/

/-- The characters that structure a signature. -/
def isDelimiter (c : Char) : Bool := c == '(' || c == ')' || c == ','

/-- A text that does not disturb the structure of a signature. -/
def hasNoDelimiter (text : String) : Bool := text.toList.all fun c => !isDelimiter c

mutual

/-- No text in a shape holds a delimiter, and every type has a text. -/
def TypeShape.isLegible : TypeShape → Bool
  | .leaf type => type != "" && hasNoDelimiter type
  | .node members suffix => areLegible members && hasNoDelimiter suffix

def areLegible : List TypeShape → Bool
  | [] => true
  | s :: rest => s.isLegible && areLegible rest

end

theorem areLegible_iff (shapes : List TypeShape) :
    areLegible shapes = true ↔ ∀ s ∈ shapes, s.isLegible = true := by
  induction shapes with
  | nil => simp [areLegible]
  | cons s rest ih => simp [areLegible, ih]

/-- A text that is at its end or goes on with a delimiter. -/
def StartsDelimited (cs : List Char) : Prop := ∀ c ∈ cs.head?, isDelimiter c = true

theorem startsDelimited_cons {c : Char} {cs : List Char} (h : isDelimiter c = true) :
    StartsDelimited (c :: cs) := by simpa [StartsDelimited] using h

theorem eq_of_hasNoDelimiter {s t : String} {r r' : List Char} (hs : hasNoDelimiter s = true)
    (ht : hasNoDelimiter t = true) (hr : StartsDelimited r) (hr' : StartsDelimited r')
    (h : s.toList ++ r = t.toList ++ r') : s = t ∧ r = r' := by
  have hplain : ∀ u : String, hasNoDelimiter u = true → ∀ c ∈ u.toList, isDelimiter c = false := by
    intro u hu c hc
    simpa using List.all_eq_true.mp hu c hc
  obtain ⟨htexts, hrests⟩ := eq_of_append_eq isDelimiter (hplain s hs) (hplain t ht) hr hr' h
  exact ⟨String.toList_inj.mp htexts, hrests⟩

/-! ## Spellings are read in one way -/

/-- The text of a leaf begins with a character of its own. -/
theorem exists_leaf_cons {type : String} (h : (TypeShape.leaf type).isLegible = true) :
    ∃ c cs, type.toList = c :: cs ∧ isDelimiter c = false := by
  simp only [TypeShape.isLegible, Bool.and_eq_true, bne_iff_ne] at h
  cases hchars : type.toList with
  | nil => exact absurd (String.toList_eq_nil_iff.mp hchars) h.1
  | cons c cs =>
    have hplain := List.all_eq_true.mp h.2 c (by simp [hchars])
    exact ⟨c, cs, rfl, by simpa using hplain⟩

/-- No spelling begins with the end of a tuple. -/
theorem spell_append_ne_close {s : TypeShape} (h : s.isLegible = true) (rest r : List Char) :
    ')' :: r ≠ s.spell ++ rest := by
  intro heq
  cases s with
  | node members suffix => simp [TypeShape.spell] at heq
  | leaf type =>
    obtain ⟨c, cs, hchars, hc⟩ := exists_leaf_cons h
    rw [TypeShape.spell, hchars, List.cons_append] at heq
    obtain ⟨rfl, -⟩ := List.cons.inj heq
    cases hc

/-- A leaf is not spelled like a tuple. -/
theorem leaf_spell_ne {type suffix : String} {members : List TypeShape} {r r' : List Char}
    (h : (TypeShape.leaf type).isLegible = true) :
    (TypeShape.leaf type).spell ++ r ≠ (TypeShape.node members suffix).spell ++ r' := by
  intro heq
  obtain ⟨c, cs, hchars, hc⟩ := exists_leaf_cons h
  rw [TypeShape.spell, TypeShape.spell, hchars, List.cons_append, List.cons_append] at heq
  obtain ⟨rfl, -⟩ := List.cons.inj heq
  cases hc

theorem startsDelimited_spellRest (shapes : List TypeShape) (r : List Char) :
    StartsDelimited (spellRest shapes ++ ')' :: r) := by
  cases shapes with
  | nil => exact startsDelimited_cons (by decide)
  | cons s rest =>
    rw [spellRest, List.cons_append]
    exact startsDelimited_cons (by decide)

mutual

/-- **A spelling is read in one way**: it says what it was made from and where it ends. -/
theorem spell_unique : ∀ (a b : TypeShape) (r r' : List Char), a.isLegible = true →
    b.isLegible = true → StartsDelimited r → StartsDelimited r' →
    a.spell ++ r = b.spell ++ r' → a = b ∧ r = r'
  | .leaf s, .leaf t, r, r', ha, hb, hr, hr', h => by
    simp only [TypeShape.isLegible, Bool.and_eq_true] at ha hb
    obtain ⟨rfl, hrests⟩ := eq_of_hasNoDelimiter ha.2 hb.2 hr hr' (by simpa [TypeShape.spell] using h)
    exact ⟨rfl, hrests⟩
  | .leaf _, .node _ _, _, _, ha, _, _, _, h => absurd h (leaf_spell_ne ha)
  | .node _ _, .leaf _, _, _, _, hb, _, _, h => absurd h.symm (leaf_spell_ne hb)
  | .node ms s, .node ns t, r, r', ha, hb, hr, hr', h => by
    simp only [TypeShape.isLegible, Bool.and_eq_true] at ha hb
    have hinner : spellAll ms ++ ')' :: (s.toList ++ r) = spellAll ns ++ ')' :: (t.toList ++ r') := by
      simpa [TypeShape.spell] using h
    obtain ⟨rfl, hbehind⟩ := spellAll_unique ms ns _ _ ha.1 hb.1 hinner
    obtain ⟨rfl, hrests⟩ := eq_of_hasNoDelimiter ha.2 hb.2 hr hr' hbehind
    exact ⟨rfl, hrests⟩

/-- The members of a tuple are known up to the parenthesis that closes it. -/
theorem spellAll_unique : ∀ (as bs : List TypeShape) (r r' : List Char), areLegible as = true →
    areLegible bs = true → spellAll as ++ ')' :: r = spellAll bs ++ ')' :: r' → as = bs ∧ r = r'
  | [], [], r, r', _, _, h => by simpa [spellAll] using h
  | [], b :: bs, r, r', _, hb, h => by
    simp only [areLegible, Bool.and_eq_true] at hb
    rw [spellAll, spellAll, List.append_assoc] at h
    exact absurd h (spell_append_ne_close hb.1 _ r)
  | a :: as, [], r, r', ha, _, h => by
    simp only [areLegible, Bool.and_eq_true] at ha
    rw [spellAll, spellAll, List.append_assoc] at h
    exact absurd h.symm (spell_append_ne_close ha.1 _ r')
  | a :: as, b :: bs, r, r', ha, hb, h => by
    simp only [areLegible, Bool.and_eq_true] at ha hb
    rw [spellAll, spellAll, List.append_assoc, List.append_assoc] at h
    obtain ⟨rfl, hbehind⟩ := spell_unique a b _ _ ha.1 hb.1 (startsDelimited_spellRest as r)
      (startsDelimited_spellRest bs r') h
    obtain ⟨rfl, hrests⟩ := spellRest_unique as bs r r' ha.2 hb.2 hbehind
    exact ⟨rfl, hrests⟩

theorem spellRest_unique : ∀ (as bs : List TypeShape) (r r' : List Char), areLegible as = true →
    areLegible bs = true → spellRest as ++ ')' :: r = spellRest bs ++ ')' :: r' → as = bs ∧ r = r'
  | [], [], r, r', _, _, h => by simpa [spellRest] using h
  | [], b :: bs, r, r', _, _, h => by simp [spellRest] at h
  | a :: as, [], r, r', _, _, h => by simp [spellRest] at h
  | a :: as, b :: bs, r, r', ha, hb, h => by
    simp only [areLegible, Bool.and_eq_true] at ha hb
    have hinner : a.spell ++ (spellRest as ++ ')' :: r) = b.spell ++ (spellRest bs ++ ')' :: r') := by
      simpa [spellRest] using h
    obtain ⟨rfl, hbehind⟩ := spell_unique a b _ _ ha.1 hb.1 (startsDelimited_spellRest as r)
      (startsDelimited_spellRest bs r') hinner
    obtain ⟨rfl, hrests⟩ := spellRest_unique as bs r r' ha.2 hb.2 hbehind
    exact ⟨rfl, hrests⟩

end

/-! ## Functions -/

theorem canonicalOf_toList (f : Function) :
    (Signature.canonicalOf f).toList =
      f.name.toList ++ '(' :: (spellAll (f.inputs.map Argument.shape) ++ ')' :: []) := by
  have hmembers := joined_canonicalTypes_toList f.inputs
  rw [shapes_eq_map] at hmembers
  simp [Signature.canonicalOf, hmembers]

/-- **Two functions have one canonical spelling exactly if they have one name and one list of shapes.** -/
theorem canonical_eq_iff (f g : Function) (hf : '(' ∉ f.name.toList) (hg : '(' ∉ g.name.toList)
    (hfs : ∀ a ∈ f.inputs, a.shape.isLegible = true)
    (hgs : ∀ a ∈ g.inputs, a.shape.isLegible = true) :
    (Signature.ofFunction f).canonical = (Signature.ofFunction g).canonical ↔
      f.name = g.name ∧ f.inputs.map Argument.shape = g.inputs.map Argument.shape := by
  have hlegible : ∀ as : List Argument, (∀ a ∈ as, a.shape.isLegible = true) →
      areLegible (as.map Argument.shape) = true := by
    intro as has
    simpa [areLegible_iff] using has
  have hopen : ∀ u : List Char, '(' ∉ u → ∀ c ∈ u, (c == '(') = false := by
    intro u hu c hc
    simpa using ne_of_mem_of_not_mem hc hu
  change Signature.canonicalOf f = Signature.canonicalOf g ↔ _
  rw [← String.toList_inj, canonicalOf_toList, canonicalOf_toList]
  constructor
  · intro h
    -- the first opening parenthesis ends the name
    obtain ⟨hname, hbehind⟩ := eq_of_append_eq (· == '(') (hopen _ hf) (hopen _ hg) (by simp)
      (by simp) h
    obtain ⟨hshapes, -⟩ := spellAll_unique _ _ _ _ (hlegible _ hfs) (hlegible _ hgs)
      (List.cons.inj hbehind).2
    exact ⟨String.toList_inj.mp hname, hshapes⟩
  · rintro ⟨hname, hshapes⟩
    rw [hname, hshapes]

/-- The names of parameters and of members do not tell functions apart, an empty tuple does. -/
theorem canonical_settle_sample :
    (Signature.ofFunction ⟨"settle", [⟨"tuple[]", "pairs", "struct Pair[]",
        [.ofType "uint256" "a", ⟨"tuple", "b", "struct Empty", []⟩]⟩], [], .view⟩).canonical =
      (Signature.ofFunction ⟨"settle", [⟨"tuple[]", "", "",
        [.ofType "uint256" "x", ⟨"tuple", "y", "", []⟩]⟩], [], .payable⟩).canonical ∧
    (Signature.ofFunction ⟨"settle", [⟨"tuple", "", "", []⟩], [], .view⟩).canonical ≠
      (Signature.ofFunction ⟨"settle", [], [], .view⟩).canonical := by
  constructor
  · refine (canonical_eq_iff _ _ (by decide) (by decide) (by decide +kernel) (by decide +kernel)).mpr ?_
    exact ⟨rfl, by cbv⟩
  · intro h
    have hshapes := (canonical_eq_iff _ _ (by decide) (by decide) (by decide +kernel) (by decide)).mp h
    simp at hshapes

end ContractBindings.Abi
