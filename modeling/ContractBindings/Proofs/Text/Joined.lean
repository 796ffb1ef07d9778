import Mathlib
import ContractBindings.Text.Joined

/-!
# Joined texts are read back

What is needed to take a text of several parts apart again.

* `toList_joined_cons`: behind the first text, the separator stands in front of every other one;
* `eq_of_append_eq`: a part without certain characters ends where the first of them stands.
-/

set_option autoImplicit false

namespace ContractBindings.Text

theorem toList_joined_cons (separator s : String) (rest : List String) :
    (joined separator (s :: rest)).toList =
      s.toList ++ rest.flatMap fun t => separator.toList ++ t.toList := by
  induction rest generalizing s with
  | nil => simp [joined]
  | cons t rest ih => simp [joined, ih, List.append_assoc]

/-- **A text up to the first character of a kind is known**, and so is what follows it. -/
theorem eq_of_append_eq (stop : Char → Bool) {xs ys r r' : List Char}
    (hxs : ∀ c ∈ xs, stop c = false) (hys : ∀ c ∈ ys, stop c = false)
    (hr : ∀ c ∈ r.head?, stop c = true) (hr' : ∀ c ∈ r'.head?, stop c = true)
    (h : xs ++ r = ys ++ r') : xs = ys ∧ r = r' := by
  induction xs generalizing ys with
  | nil =>
    cases ys with
    | nil => exact ⟨rfl, h⟩
    | cons y ys =>
      rw [List.nil_append] at h
      have hstop := hr y (by simp [h])
      simp [hys y (by simp)] at hstop
  | cons x xs ih =>
    cases ys with
    | nil =>
      rw [List.nil_append] at h
      have hstop := hr' x (by simp [← h])
      simp [hxs x (by simp)] at hstop
    | cons y ys =>
      rw [List.cons_append, List.cons_append, List.cons.injEq] at h
      obtain ⟨htexts, hrests⟩ := ih (fun c hc => hxs c (List.mem_cons_of_mem _ hc))
        (fun c hc => hys c (List.mem_cons_of_mem _ hc)) h.2
      exact ⟨by rw [h.1, htexts], hrests⟩

end ContractBindings.Text
