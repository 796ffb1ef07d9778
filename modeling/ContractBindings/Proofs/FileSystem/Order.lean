import Mathlib
import ContractBindings.FileSystem.Path

/-!
# The order of paths

Paths are ordered by their components, and the order of components is the one of lists of numbers. So
`le` is a linear order up to the spelling of paths (`le_iff`, `key_inj`), and a sorted list of paths is
the only one with its elements (`sublist_of_ordered`).
-/

set_option autoImplicit false

namespace ContractBindings.Path

theorem precedes_iff {α : Type} [LinearOrder α] {lt : α → α → Bool}
    (hlt : ∀ a b, lt a b = true ↔ a < b) (xs ys : List α) : precedes lt xs ys = true ↔ xs < ys := by
  induction xs generalizing ys with
  | nil => cases ys <;> simp [precedes]
  | cons x xs ih =>
    cases ys with
    | nil => simp [precedes]
    | cons y ys =>
      rw [precedes, Bool.or_eq_true, Bool.and_eq_true, Bool.not_eq_true', Bool.eq_false_iff, Ne, hlt,
        hlt, ih, not_lt, List.cons_lt_cons_iff]
      constructor
      · rintro (h | ⟨hle, h⟩)
        · exact Or.inl h
        · exact (lt_or_eq_of_le hle).imp_right fun he => ⟨he, h⟩
      · rintro (h | ⟨rfl, h⟩)
        · exact Or.inl h
        · exact Or.inr ⟨le_refl _, h⟩

theorem lt_iff {p q : Path} : p.lt q = true ↔ p.key < q.key :=
  precedes_iff (fun a b => precedes_iff (fun _ _ => decide_eq_true_iff) a b) p.key q.key

/-- The order of paths is the order of their keys. -/
theorem le_iff {p q : Path} : p.le q = true ↔ p.key ≤ q.key := by
  rw [le, Bool.not_eq_true', Bool.eq_false_iff, Ne, lt_iff, not_lt]

theorem Component.key_injective : Function.Injective Component.key := by
  intro a b h
  cases a <;> cases b <;> simp [key] at h ⊢
  rename_i m n
  exact List.map_injective_iff.mpr (fun x y hxy => UInt8.toNat_inj.mp hxy) h

/-- Paths with equal keys are spelled with the same components. -/
theorem key_inj {p q : Path} : p.key = q.key ↔ p.components = q.components :=
  ⟨fun h => List.map_injective_iff.mpr Component.key_injective h, fun h => by rw [key, h]; rfl⟩

theorem pairwise_sort (paths : List Path) : (sort paths).Pairwise fun p q => p.key ≤ q.key := by
  have htrans : ∀ p q r : Path, p.le q = true → q.le r = true → p.le r = true :=
    fun p q r hpq hqr => le_iff.mpr (le_trans (le_iff.mp hpq) (le_iff.mp hqr))
  have htotal : ∀ p q : Path, (p.le q || q.le p) = true := by
    intro p q
    rw [Bool.or_eq_true, le_iff, le_iff]
    exact le_total _ _
  exact (List.pairwise_mergeSort htrans htotal paths).imp fun h => le_iff.mp h

theorem perm_sort (paths : List Path) : (sort paths).Perm paths := List.mergeSort_perm paths le

/-- Paths without repetition that their keys tell apart are sorted in strict order. -/
theorem pairwise_lt_sort {paths : List Path} (hnodup : paths.Nodup)
    (hinj : ∀ p ∈ paths, ∀ q ∈ paths, p.key = q.key → p = q) :
    (sort paths).Pairwise fun p q => p.key < q.key := by
  have hboth := (pairwise_sort paths).and ((perm_sort paths).nodup_iff.mpr hnodup)
  refine hboth.imp_of_mem fun {p q} hp hq hpq => lt_of_le_of_ne hpq.1 fun hkey => hpq.2 ?_
  exact hinj p ((perm_sort paths).subset hp) q ((perm_sort paths).subset hq) hkey

/-- Of two lists in strict order, the one with fewer elements is a part of the other. -/
theorem sublist_of_ordered {xs ys : List Path} (hx : xs.Pairwise fun p q => p.key < q.key)
    (hy : ys.Pairwise fun p q => p.key < q.key) (hsub : xs ⊆ ys) : xs.Sublist ys := by
  have hasymm : Std.Antisymm fun p q : Path => p.key < q.key :=
    ⟨fun _ _ h h' => absurd h' (lt_asymm h)⟩
  have hirrefl : Std.Irrefl fun p q : Path => p.key < q.key := ⟨fun p => lt_irrefl p.key⟩
  exact List.sublist_of_subperm_of_pairwise (hx.nodup.subperm hsub) hx hy

end ContractBindings.Path
