import ContractBindings.Compiler.Skip
import ContractBindings.Proofs.Json.Locality

/-!
# Skipping is local

What is skipped is a part at the front of the text, and the same part is skipped before any other rest from
which a number does not go on.

* `Leaves`: this, for functions that give the rest only;
* `leaves_string`, `leaves_key`, `isLocal_scalar`: the steps have it;
* `Walks`, `walks_of_proceed`: and so has the walk through the containers, from one step to all of them.  A
  character takes at most four steps;
* `isLocal_value`: a value that is skipped is thus skipped with every budget that is more than its length.
-/

set_option autoImplicit false

namespace ContractBindings.Compiler.Skip

open Json

/-- What the first function skips, the others skip. -/
def Leaves (f : List Char → Except Fault (List Char)) (f' : Nat → List Char → Except Fault (List Char)) :
    Prop :=
  ∀ ⦃cs rest : List Char⦄, f cs = .ok rest → ∃ used, cs = used ++ rest ∧
    ∀ ⦃budget : Nat⦄ ⦃rest' : List Char⦄, used.length < budget → Agree rest rest' →
      f' budget (used ++ rest') = .ok rest'

/-! ## Scalars -/

theorem leaves_escape : Leaves escape fun _ => escape := by
  intro cs rest h
  unfold escape at h
  split at h
  · cases h
  · obtain ⟨⟨n, next⟩, hn, rfl⟩ := map_eq_ok_iff.mp h
    obtain ⟨used, rfl, hused⟩ := Reader.isLocal_hexEscape hn
    refine ⟨'u' :: used, rfl, fun _ rest' _ hagree => ?_⟩
    have hread := hused (Nat.lt_succ_self _) hagree
    simp only [List.cons_append, escape, hread, Except.map]
  · rename_i c cs hu
    split at h
    · rename_i d hd
      cases h
      refine ⟨[c], rfl, fun _ rest' _ _ => ?_⟩
      show escape (c :: rest') = _
      rw [escape]
      · simp only [hd]
      · exact hu
    · cases h

theorem leaves_string (n : Nat) : Leaves (string n) string := by
  induction n with
  | zero => intro cs rest h; cases h
  | succ n ih =>
    intro cs rest h
    cases cs with
    | nil => cases h
    | cons c cs =>
      rw [string] at h
      split at h
      · rename_i hquote
        cases h
        refine ⟨[c], rfl, fun budget rest' hbudget _ => ?_⟩
        obtain ⟨budget, rfl⟩ : ∃ k, budget = k + 1 := ⟨budget - 1, by omega⟩
        rw [List.cons_append, List.nil_append, string, if_pos hquote]
      rename_i hquote
      split at h
      · rename_i hslash
        obtain ⟨next, hnext, hr⟩ := bind_eq_ok.mp h
        obtain ⟨used, rfl, hused⟩ := leaves_escape hnext
        obtain ⟨more, rfl, hmore⟩ := ih hr
        refine ⟨c :: (used ++ more), by simp, fun budget rest' hbudget hagree => ?_⟩
        rw [List.length_cons, List.length_append] at hbudget
        obtain ⟨budget, rfl⟩ : ∃ k, budget = k + 1 := ⟨budget - 1, by omega⟩
        have hread := hused (Nat.lt_succ_self _) (hagree.append more)
        have hread' : string budget (more ++ rest') = .ok rest' := hmore (by omega) hagree
        rw [List.cons_append, List.append_assoc, string, if_neg hquote, if_pos hslash]
        simp only [hread, hread', bind, Except.bind]
      rename_i hslash
      split at h
      · cases h
      · rename_i hcontrol
        obtain ⟨used, rfl, hused⟩ := ih h
        refine ⟨c :: used, rfl, fun budget rest' hbudget hagree => ?_⟩
        rw [List.length_cons] at hbudget
        obtain ⟨budget, rfl⟩ : ∃ k, budget = k + 1 := ⟨budget - 1, by omega⟩
        rw [List.cons_append, string, if_neg hquote, if_neg hslash, if_neg hcontrol]
        exact hused (by omega) hagree

theorem leaves_number : Leaves number fun _ => number := by
  intro cs rest h
  unfold number at h
  split at h
  · rename_i parts next hparts
    cases h
    obtain ⟨used, hcs, hused⟩ := Reader.isLocal_numeral hparts
    refine ⟨used, hcs, fun _ rest' _ hagree => ?_⟩
    have hread := hused (Nat.lt_succ_self _) hagree
    simp only [number, hread]
  · cases h
  · cases h

/-- What is skipped, as a reader. -/
theorem Leaves.isLocal {f : List Char → Except Fault (List Char)}
    {f' : Nat → List Char → Except Fault (List Char)} (h : Leaves f f') {α : Type} (x : α) :
    Reader.IsLocal (fun cs => (f cs).map fun rest => (x, rest))
      fun budget cs => (f' budget cs).map fun rest => (x, rest) := by
  intro cs y rest hr
  obtain ⟨next, hnext, hy⟩ := map_eq_ok_iff.mp hr
  cases hy
  obtain ⟨used, hcs, hused⟩ := h hnext
  refine ⟨used, hcs, fun budget rest' hbudget hagree => ?_⟩
  simp only [hused hbudget hagree, Except.map]

theorem isLocal_keyword (ks : List Char) :
    Reader.IsLocal (fun cs => (Reader.keyword ks cs).map fun (_, rest) => ((none : Option Container), rest))
      fun _ cs => (Reader.keyword ks cs).map fun (_, rest) => (none, rest) := by
  intro cs y rest hr
  obtain ⟨⟨_, next⟩, hnext, hy⟩ := map_eq_ok_iff.mp hr
  cases hy
  obtain ⟨used, hcs, hused⟩ := Reader.isLocal_keyword ks hnext
  refine ⟨used, hcs, fun budget rest' hbudget hagree => ?_⟩
  have hread := hused hbudget hagree
  simp only [hread, Except.map]

theorem isLocal_scalar (n : Nat) : Reader.IsLocal (scalar n) scalar := by
  refine Reader.IsLocal.head (fun c => ?_) (.atEnd .eofValue)
  refine (isLocal_keyword _).ite ((isLocal_keyword _).ite ((isLocal_keyword _).ite ?_))
  refine ((leaves_string n).isLocal none).ite ((leaves_number.isLocal none).ite ?_)
  refine ((leaves_number.isLocal none).cons (fun _ _ => nofun) c).ite ?_
  -- what opens a container is one character
  exact (Reader.isLocal_pure _).ite ((Reader.isLocal_pure _).ite (Reader.isLocal_error _ _))

/-! ## Containers -/

theorem leaves_key (n : Nat) : Leaves (key n) key := by
  intro cs rest h
  unfold key at h
  split at h
  · cases h
  · rename_i next hquote
    obtain ⟨behind, hbehind, hr⟩ := bind_eq_ok.mp h
    obtain ⟨⟨_, after⟩, hafter, hr⟩ := bind_eq_ok.mp hr
    cases hr
    obtain ⟨used, rfl, hused⟩ := leaves_string n hbehind
    obtain ⟨more, rfl, hmore⟩ := Reader.isLocal_colon hafter
    obtain ⟨blanks, rfl, hblanks⟩ := exists_of_skipBlanks hquote
    refine ⟨blanks ++ '"' :: (used ++ more), by simp, fun budget rest' hbudget hagree => ?_⟩
    simp only [List.length_append, List.length_cons] at hbudget
    have hread : string budget (used ++ (more ++ rest')) = .ok (more ++ rest') :=
      hused (by omega) (hagree.append more)
    have hread' := hmore (Nat.lt_succ_self _) hagree
    simp only [List.append_assoc, List.cons_append, key, hblanks, hread, hread', bind, Except.bind]
  · cases h

/-- How many steps are taken at a place beyond four for each character. -/
def Place.steps : Place → Nat
  | .value => 1
  | .opened => 3
  | .element => 2
  | .behind => 1

theorem scalar_nil (budget : Nat) (p : Option Container × List Char) : scalar budget [] ≠ .ok p := nofun

/-- There is no element at the end of a text. -/
theorem proceed_element_nil (budget : Nat) (containers : List Container) (rest : List Char) :
    proceed budget .element containers [] ≠ .ok rest := by
  have hvalue : ∀ budget, proceed budget .value containers [] ≠ .ok rest := by
    intro budget
    cases budget <;> nofun
  cases budget with
  | zero => nofun
  | succ budget =>
    rcases containers with _ | ⟨_ | _, containers⟩
    · exact hvalue budget
    · exact hvalue budget
    · nofun

theorem Place.one_le_steps (place : Place) : 1 ≤ place.steps := by cases place <;> decide

/-- From a place a part of a text is walked over, and the same part before any other rest that agrees; four
steps for each character are enough. -/
def Walks (place : Place) (containers : List Container) (cs rest : List Char) : Prop :=
  ∃ used, cs = used ++ rest ∧ ∀ ⦃budget : Nat⦄ ⦃rest' : List Char⦄,
    4 * used.length + place.steps ≤ budget → Agree rest rest' →
      proceed budget place containers (used ++ rest') = .ok rest'

section Walks

variable {place place' : Place} {containers containers' : List Container} {rest : List Char}

/-- Where nothing is left to do nothing is taken. -/
theorem walks_of_stop (h : ∀ budget cs, proceed (budget + 1) place containers cs = .ok cs) :
    Walks place containers rest rest := by
  refine ⟨[], rfl, fun budget rest' hbudget _ => ?_⟩
  have hpos := place.one_le_steps
  obtain ⟨budget, rfl⟩ : ∃ k, budget = k + 1 := ⟨budget - 1, by omega⟩
  exact h budget rest'

/-- A step that takes a part of the text and goes on from another place. -/
theorem Walks.step {taken next : List Char} (h : Walks place' containers' next rest)
    (hsteps : place'.steps + 1 ≤ 4 * taken.length + place.steps)
    (hgo : ∀ ⦃budget : Nat⦄ ⦃rest' : List Char⦄, 4 * taken.length ≤ budget + 2 → Agree next rest' →
      proceed (budget + 1) place containers (taken ++ rest') = proceed budget place' containers' rest') :
    Walks place containers (taken ++ next) rest := by
  obtain ⟨more, rfl, hmore⟩ := h
  refine ⟨taken ++ more, (List.append_assoc ..).symm, fun budget rest' hbudget hagree => ?_⟩
  rw [List.length_append] at hbudget
  have hpos := place.one_le_steps
  have hpos' := place'.one_le_steps
  obtain ⟨budget, rfl⟩ : ∃ k, budget = k + 1 := ⟨budget - 1, by omega⟩
  rw [List.append_assoc, hgo (by omega) (hagree.append more)]
  exact hmore (by omega) hagree

/-- A step that takes one character, with the blanks before it. -/
theorem Walks.character {c : Char} {cs next : List Char} (h : Walks place' containers' next rest)
    (hskip : skipBlanks cs = c :: next) (hsteps : place'.steps ≤ place.steps + 3)
    (hgo : ∀ {budget : Nat} {cs' rest' : List Char}, skipBlanks cs' = c :: rest' →
      proceed (budget + 1) place containers cs' = proceed budget place' containers' rest') :
    Walks place containers cs rest := by
  obtain ⟨blanks, hcs, hblanks⟩ := exists_of_skipBlanks hskip
  have htaken : cs = (blanks ++ [c]) ++ next := by simpa using hcs
  have hlength : 4 ≤ 4 * (blanks ++ [c]).length := by simp
  rw [htaken]
  refine h.step (by omega) fun budget rest' _ _ => hgo ?_
  rw [List.append_assoc, List.singleton_append, hblanks]

/-- What is left after this many steps is so after a walk, from every place. -/
def WalksAll (n : Nat) (rest : List Char) : Prop :=
  ∀ place containers ⦃cs : List Char⦄, proceed n place containers cs = .ok rest →
    Walks place containers cs rest

variable {n : Nat} {cs : List Char}

theorem walks_value (ih : WalksAll n rest) (h : proceed (n + 1) .value containers cs = .ok rest) :
    Walks .value containers cs rest := by
  rw [proceed] at h
  obtain ⟨⟨found, next⟩, hfound, hr⟩ := bind_eq_ok.mp h
  obtain ⟨c, used, hskip, hused⟩ := (isLocal_scalar (n + 1)).exists_cons scalar_nil hfound
  obtain ⟨blanks, hcs, hblanks⟩ := exists_of_skipBlanks hskip
  have htaken : cs = (blanks ++ c :: used) ++ next := by simpa using hcs
  have hlength : 4 ≤ 4 * (blanks ++ c :: used).length := by
    rw [List.length_append, List.length_cons]
    omega
  have hread : ∀ ⦃budget : Nat⦄ ⦃rest' : List Char⦄, 4 * (blanks ++ c :: used).length ≤ budget + 2 →
      Agree next rest' → scalar (budget + 1) (skipBlanks ((blanks ++ c :: used) ++ rest')) =
        .ok (found, rest') := by
    intro budget rest' hbudget hagree
    rw [List.length_append, List.length_cons] at hbudget
    rw [List.append_assoc, List.cons_append, hblanks]
    exact hused (by rw [List.length_cons]; omega) hagree
  rw [htaken]
  cases found with
  | some container =>
    refine (ih .opened _ hr).step (by simp only [Place.steps]; omega) fun budget rest' hbudget hagree => ?_
    simp only [proceed, hread hbudget hagree, bind, Except.bind]
  | none =>
    refine (ih .behind _ hr).step (by simp only [Place.steps]; omega) fun budget rest' hbudget hagree => ?_
    simp only [proceed, hread hbudget hagree, bind, Except.bind]

theorem walks_behind (ih : WalksAll n rest) (h : proceed (n + 1) .behind containers cs = .ok rest) :
    Walks .behind containers cs rest := by
  cases containers with
  | nil =>
    cases h
    exact walks_of_stop fun _ _ => rfl
  | cons container containers =>
    rw [proceed] at h
    split at h
    · cases h
    rename_i c next hskip
    split at h
    · rename_i hcomma
      refine (ih .element _ h).character hskip (by decide) fun hskip' => ?_
      rw [proceed, hskip']
      exact if_pos hcomma
    rename_i hcomma
    split at h
    · rename_i hclose
      refine (ih .behind _ h).character hskip (by decide) fun hskip' => ?_
      rw [proceed, hskip']
      exact (if_neg hcomma).trans (if_pos hclose)
    · cases h

theorem walks_opened (ih : WalksAll n rest) (h : proceed (n + 1) .opened containers cs = .ok rest) :
    Walks .opened containers cs rest := by
  cases containers with
  | nil =>
    cases h
    exact walks_of_stop fun _ _ => rfl
  | cons container containers =>
    rw [proceed] at h
    split at h
    · cases h
    rename_i c next hskip
    split at h
    · rename_i hclose
      refine (ih .behind _ h).character hskip (by decide) fun hskip' => ?_
      rw [proceed, hskip']
      exact if_pos hclose
    · rename_i hclose
      obtain ⟨blanks, hcs, hblanks⟩ := exists_of_skipBlanks hskip
      -- the element begins with the character that was looked at, as it is not empty
      obtain ⟨used, hnext, hused⟩ := ih .element _ h
      cases used with
      | nil => exact absurd (hused le_rfl (agree_nil rest)) (proceed_element_nil _ _ _)
      | cons d used =>
        cases hnext
        refine ⟨blanks ++ c :: used, by simpa using hcs, fun budget rest' hbudget hagree => ?_⟩
        simp only [List.length_append, List.length_cons, Place.steps] at hbudget hused
        obtain ⟨budget, rfl⟩ : ∃ k, budget = k + 1 := ⟨budget - 1, by omega⟩
        rw [List.append_assoc, List.cons_append, proceed, hblanks]
        exact (if_neg hclose).trans (hused (by omega) hagree)

theorem walks_element (ih : WalksAll n rest) (h : proceed (n + 1) .element containers cs = .ok rest) :
    Walks .element containers cs rest := by
  -- in an array the element is a value
  have hvalue : (∀ budget cs, proceed (budget + 1) .element containers cs = proceed budget .value containers cs) →
      proceed n .value containers cs = .ok rest → Walks .element containers ([] ++ cs) rest :=
    fun hgo hnext => (ih .value _ hnext).step (by decide) fun budget rest' _ _ => hgo budget rest'
  rcases containers with _ | ⟨_ | _, containers⟩
  · exact hvalue (fun _ _ => rfl) h
  · exact hvalue (fun _ _ => rfl) h
  · obtain ⟨next, hnext, hr⟩ := bind_eq_ok.mp h
    obtain ⟨used, rfl, hused⟩ := leaves_key (n + 1) hnext
    have hsteps : Place.value.steps + 1 ≤ 4 * used.length + Place.element.steps := by simp [Place.steps]
    refine (ih .value _ hr).step hsteps fun budget rest' hbudget hagree => ?_
    have hread : key (budget + 1) (used ++ rest') = .ok rest' := hused (by omega) hagree
    simp only [proceed, hread, bind, Except.bind]

end Walks

/-- **The walk through the containers is local.** -/
theorem walks_of_proceed (n : Nat) (rest : List Char) : WalksAll n rest := by
  induction n with
  | zero => intro place containers cs h; cases h
  | succ n ih =>
    intro place containers cs h
    cases place with
    | value => exact walks_value ih h
    | behind => exact walks_behind ih h
    | opened => exact walks_opened ih h
    | element => exact walks_element ih h

/-- **A value is skipped with every budget that is more than its length**, before any rest that agrees. -/
theorem isLocal_value (n : Nat) : Reader.IsLocal (value n) value := by
  intro cs x rest hr
  obtain ⟨next, hnext, hx⟩ := map_eq_ok_iff.mp hr
  cases hx
  obtain ⟨used, hcs, hused⟩ := walks_of_proceed _ _ _ _ hnext
  refine ⟨used, hcs, fun budget rest' hbudget hagree => ?_⟩
  have hread : proceed (4 * budget + 4) .value [] (used ++ rest') = .ok rest' :=
    hused (by simp only [Place.steps]; omega) hagree
  rw [value, hread]
  rfl

end ContractBindings.Compiler.Skip
