import Mathlib
import ContractBindings.HostType

/-!
# Types inside arrays

A host type is an innermost type inside a number of arrays, and an ABI type is a base with a number of
brackets behind it.

* `nest_innermost`: a host type is its innermost type, nested as deep as it is;
* `render_nest`: arrays are spelled as brackets behind the spelling of the innermost type;
* `exists_isSplit`, `IsSplit.unique`: a type is a base and brackets in exactly one way;
* `IsSplit.resolve_eq`: it resolves to what its base resolves to, inside as many arrays.
-/

set_option autoImplicit false

namespace ContractBindings.HostType

/-! ## Host types -/

/-- The type inside all arrays. -/
def innermost : HostType → HostType
  | array element => element.innermost
  | type => type

def depth : HostType → Nat
  | array element => element.depth + 1
  | _ => 0

/-- **A type is its innermost type inside its arrays.** -/
theorem nest_innermost (type : HostType) : type.innermost.nest type.depth = type := by
  induction type with
  | array element ih => exact congrArg array ih
  | _ => rfl

/-- A type that is no array is its own innermost type. -/
theorem innermost_of_scalar {type : HostType} (h : ∀ element, type ≠ array element) :
    type.innermost = type ∧ type.depth = 0 := by
  cases type with
  | array element => exact absurd rfl (h element)
  | _ => exact ⟨rfl, rfl⟩

theorem innermost_nest (type : HostType) (n : Nat) : (type.nest n).innermost = type.innermost := by
  induction n with
  | zero => rfl
  | succ n ih => exact ih

theorem depth_nest (type : HostType) (n : Nat) : (type.nest n).depth = type.depth + n := by
  induction n with
  | zero => rfl
  | succ n ih => rw [nest, depth, ih, Nat.add_assoc]

theorem import?_nest (type : HostType) (depth : Nat) : (type.nest depth).import? = type.import? := by
  induction depth with
  | zero => rfl
  | succ depth ih => exact ih

/-! ## Brackets -/

/-- The brackets of a number of arrays. -/
def brackets (depth : Nat) : String := String.join (List.replicate depth "[]")

theorem brackets_succ (depth : Nat) : brackets (depth + 1) = brackets depth ++ "[]" := by
  simp [brackets, List.replicate_succ', String.join_append]

/-- The first brackets stand in front of the others. -/
theorem toList_brackets_succ (depth : Nat) :
    (brackets (depth + 1)).toList = '[' :: ']' :: (brackets depth).toList := by
  simp [brackets, List.replicate_succ]

theorem reverse_brackets_succ (depth : Nat) :
    (brackets (depth + 1)).toList.reverse = ']' :: '[' :: (brackets depth).toList.reverse := by
  simp [brackets_succ, String.toList_append]

/-- **Arrays are spelled as brackets.** -/
theorem render_nest (type : HostType) (n : Nat) : (type.nest n).render = type.render ++ brackets n := by
  induction n with
  | zero => simp [nest, brackets]
  | succ n ih => rw [nest, render, ih, brackets_succ, String.append_assoc]

/-! ## ABI types -/

/-- A type is a base that does not end in brackets, with a number of brackets behind it. -/
structure IsSplit (type : String) (depth : Nat) (base : String) : Prop where
  spelled : type = base ++ brackets depth
  bare : ¬ ['[', ']'] <:+ base.toList

variable {type base base' : String} {n n' : Nat}

theorem splitArrays_of_bare {cs : List Char} (h : ¬ [']', '['] <+: cs) : splitArrays cs = (0, cs) := by
  unfold splitArrays
  split
  · exact absurd (by simp) h
  · rfl

theorem splitArrays_brackets (n : Nat) {cs : List Char} (h : ¬ [']', '['] <+: cs) :
    splitArrays ((brackets n).toList.reverse ++ cs) = (n, cs) := by
  induction n with
  | zero => simpa [brackets] using splitArrays_of_bare h
  | succ n ih =>
    rw [reverse_brackets_succ, List.cons_append, List.cons_append, splitArrays, ih]

/-- Brackets end somewhere: a text that is read from its end. -/
theorem exists_brackets_append (cs : List Char) :
    ∃ n rest, cs = (brackets n).toList.reverse ++ rest ∧ ¬ [']', '['] <+: rest := by
  induction cs using splitArrays.induct with
  | case1 rest _ _ _ ih =>
    obtain ⟨n, base, hrest, hbase⟩ := ih
    refine ⟨n + 1, base, ?_, hbase⟩
    rw [reverse_brackets_succ, hrest]
    rfl
  | case2 base hbase =>
    refine ⟨0, base, by simp [brackets], ?_⟩
    rintro ⟨rest, rfl⟩
    exact hbase rest rfl

theorem isBare_iff (base : String) :
    (¬ ['[', ']'] <:+ base.toList) ↔ ¬ [']', '['] <+: base.toList.reverse := by
  rw [← List.reverse_prefix]
  rfl

/-- **Every type is a base with brackets behind it.** -/
theorem exists_isSplit (type : String) : ∃ n base, IsSplit type n base := by
  obtain ⟨n, rest, hcs, hrest⟩ := exists_brackets_append type.toList.reverse
  refine ⟨n, String.ofList rest.reverse, ?_, ?_⟩
  · apply String.toList_injective
    rw [String.toList_append, String.toList_ofList, ← List.reverse_inj, hcs]
    simp
  · rw [isBare_iff]
    simpa using hrest

/-- **The base and the brackets are found.** -/
theorem IsSplit.split_eq (h : IsSplit type n base) : split type = (n, base.toList) := by
  have hbase := (isBare_iff base).mp h.bare
  have hcs : type.toList.reverse = (brackets n).toList.reverse ++ base.toList.reverse := by
    rw [h.spelled, String.toList_append, List.reverse_append]
  simp only [split, hcs, splitArrays_brackets n hbase, List.reverse_reverse]

theorem IsSplit.unique (h : IsSplit type n base) (h' : IsSplit type n' base') : n' = n ∧ base' = base := by
  have heq := h'.split_eq.symm.trans h.split_eq
  rw [Prod.mk.injEq] at heq
  exact ⟨heq.1, String.toList_injective heq.2⟩

/-- One more pair of brackets is one more array. -/
theorem IsSplit.array (h : IsSplit type n base) : IsSplit (type ++ "[]") (n + 1) base :=
  ⟨by rw [h.spelled, brackets_succ, String.append_assoc], h.bare⟩

/-- **A type resolves to what its base resolves to**, inside as many arrays as it has brackets. -/
theorem IsSplit.resolve_eq (h : IsSplit type n base) (position : Position) :
    resolve type position = (ofBase base.toList position).nest n := by
  rw [resolve, h.split_eq]

end ContractBindings.HostType
