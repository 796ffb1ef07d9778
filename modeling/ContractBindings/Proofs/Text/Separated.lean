import Mathlib

/-!
# Lists between separators

Paths are split at slashes twice: as bytes when they are walked along, and as characters when they
are part of a pattern.  `between` is the common form of both.

* `between_append`: a separator ends a piece, whatever stands around it;
* `between_flatMap`: writing every element as a list keeps the pieces, if only the separator is
  written with the new separator.  UTF-8 and the escapes of patterns are such writings.
-/

set_option autoImplicit false

namespace ContractBindings.Text

variable {α β : Type} [DecidableEq α] [DecidableEq β]

/-- The pieces of a list between separators; there is always one. -/
def between (s : α) : List α → List (List α)
  | [] => [[]]
  | a :: rest =>
    if a = s then [] :: between s rest
    else
      match between s rest with
      | [] => [[a]]
      | piece :: pieces => (a :: piece) :: pieces

theorem between_ne_nil (s : α) (xs : List α) : between s xs ≠ [] := by
  cases xs with
  | nil => simp [between]
  | cons a rest =>
    unfold between
    split
    · simp
    · split <;> simp

theorem between_cons_self (s : α) (xs : List α) : between s (s :: xs) = [] :: between s xs := by
  simp [between]

/-- An element that is no separator goes to the front of the first piece. -/
theorem between_cons_of_ne {s a : α} (h : a ≠ s) {xs piece : List α} {pieces : List (List α)}
    (hx : between s xs = piece :: pieces) : between s (a :: xs) = (a :: piece) :: pieces := by
  simp [between, h, hx]

theorem between_append (s : α) (xs ys : List α) :
    between s (xs ++ s :: ys) = between s xs ++ between s ys := by
  induction xs with
  | nil => simp [between]
  | cons a xs ih =>
    by_cases h : a = s
    · subst h
      simp [between_cons_self, ih]
    · obtain ⟨piece, pieces, hx⟩ := List.exists_cons_of_ne_nil (between_ne_nil s xs)
      rw [List.cons_append, between_cons_of_ne h (by rw [ih, hx]; rfl), between_cons_of_ne h hx]
      rfl

theorem between_of_not_mem {s : α} {xs : List α} (h : s ∉ xs) : between s xs = [xs] := by
  induction xs with
  | nil => rfl
  | cons a xs ih =>
    rw [List.mem_cons, not_or] at h
    exact between_cons_of_ne (Ne.symm h.1) (ih h.2)

theorem not_mem_of_mem_between {s : α} {xs : List α} : ∀ piece ∈ between s xs, s ∉ piece := by
  induction xs with
  | nil => simp [between]
  | cons a xs ih =>
    by_cases h : a = s
    · subst h
      simpa [between_cons_self] using ih
    · obtain ⟨piece, pieces, hx⟩ := List.exists_cons_of_ne_nil (between_ne_nil s xs)
      rw [hx] at ih
      rw [between_cons_of_ne h hx]
      intro q hq
      rcases List.mem_cons.mp hq with rfl | hq
      · simpa [Ne.symm h] using ih piece (by simp)
      · exact ih q (by simp [hq])

/-- A list without separators, before more of the list or not: the two shapes of a list. -/
theorem between_induction {s : α} {motive : List α → Prop}
    (last : ∀ xs, s ∉ xs → motive xs)
    (more : ∀ xs ys, s ∉ xs → motive ys → motive (xs ++ s :: ys)) (xs : List α) : motive xs := by
  suffices h : ∀ ys done : List α, s ∉ done → motive (done ++ ys) from h xs [] (by simp)
  intro ys
  induction ys with
  | nil => intro done hd; simpa using last done hd
  | cons a ys ih =>
    intro done hd
    by_cases h : a = s
    · subst h
      exact more done ys hd (ih [] (by simp))
    · have := ih (done ++ [a]) (by simp [hd, Ne.symm h])
      simpa using this

/-- Nothing but the separators is lost. -/
theorem mem_between_iff {s a : α} (h : a ≠ s) (xs : List α) :
    a ∈ xs ↔ ∃ piece ∈ between s xs, a ∈ piece := by
  induction xs using between_induction (s := s) with
  | last xs hxs => simp [between_of_not_mem hxs]
  | more xs ys hxs ih =>
    rw [between_append, between_of_not_mem hxs, List.mem_append, List.mem_cons, ih]
    simp [h]

theorem between_flatMap {s : α} {t : β} {f : α → List β} (hs : f s = [t])
    (hf : ∀ a, a ≠ s → t ∉ f a) (xs : List α) :
    between t (xs.flatMap f) = (between s xs).map (List.flatMap f) := by
  have hpiece : ∀ xs : List α, s ∉ xs → t ∉ xs.flatMap f := by
    intro xs hxs ht
    obtain ⟨a, ha, h⟩ := List.mem_flatMap.mp ht
    exact hf a (fun e => hxs (e ▸ ha)) h
  induction xs using between_induction (s := s) with
  | last xs hxs => simp [between_of_not_mem hxs, between_of_not_mem (hpiece xs hxs)]
  | more xs ys hxs ih =>
    rw [between_append, List.flatMap_append, List.flatMap_cons, hs, List.singleton_append,
      between_append, ih, between_of_not_mem hxs, between_of_not_mem (hpiece xs hxs)]
    simp

end ContractBindings.Text
