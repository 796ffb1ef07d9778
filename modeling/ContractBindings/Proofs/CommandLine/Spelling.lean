import Mathlib.Data.List.TakeWhile
import Mathlib.Tactic.SplitIfs
import ContractBindings.CommandLine.Arguments

/-!
# The spelling of a command line

`Spells arguments given` says which settings a command line spells, without a word on how it is read: a
list of arguments with their values, in order.  A value stands behind an equals sign or in the next
argument, which must not look like an option; behind `--` everything is a source directory.

A long option is determined by its spelling (`spelled_inj`), because no name has an equals sign; it is
neither `--` nor plain.  So arguments spell at most one list of settings (`Spells.unique`).
-/

set_option autoImplicit false

namespace ContractBindings.CommandLine

/-! ## Spelling -/

/-- The text does not look like an option: it does not start with a hyphen, or is a hyphen alone. -/
def IsPlain (text : String) : Prop := ∀ c cs, text.toList ≠ '-' :: c :: cs

/-- The arguments spell these settings, in order. -/
inductive Spells : List String → List (Argument × String) → Prop where
  | nil : Spells [] []
  /-- Behind two hyphens every argument is a source directory. -/
  | places (values : List String) : Spells ("--" :: values) (values.map fun v => (.source, v))
  /-- An option without a value. -/
  | switch {name : String} {a : Argument} {rest : List String} {given : List (Argument × String)}
      (hname : Argument.ofLong? name = some a) (ha : a = .skipCompile ∨ a = .verbose)
      (hrest : Spells rest given) : Spells (("--" ++ name) :: rest) ((a, "") :: given)
  /-- An option with its value behind an equals sign. -/
  | attached {name value : String} {a : Argument} {rest : List String}
      {given : List (Argument × String)} (hname : Argument.ofLong? name = some a)
      (ha : a.takesValue = true) (hrest : Spells rest given) :
      Spells (("--" ++ name ++ "=" ++ value) :: rest) ((a, value) :: given)
  /-- An option with its value in the next argument. -/
  | separate {name value : String} {a : Argument} {rest : List String}
      {given : List (Argument × String)} (hname : Argument.ofLong? name = some a)
      (ha : a.takesValue = true) (hvalue : IsPlain value) (hrest : Spells rest given) :
      Spells (("--" ++ name) :: value :: rest) ((a, value) :: given)
  /-- A source directory. -/
  | place {value : String} {rest : List String} {given : List (Argument × String)}
      (hvalue : IsPlain value) (hrest : Spells rest given) :
      Spells (value :: rest) ((.source, value) :: given)

/-- How a long option is spelled with the value behind its equals sign, if there is one. -/
def spelled (name : String) : Option String → String
  | none => "--" ++ name
  | some value => "--" ++ name ++ "=" ++ value

/-! ## One reading -/

theorem not_mem_of_ofLong? {name : String} {a : Argument} (h : Argument.ofLong? name = some a) :
    '=' ∉ name.toList := by
  unfold Argument.ofLong? at h
  split_ifs at h with h₁ h₂ h₃ h₄ h₅ h₆ h₇ h₈ h₉ <;> subst name <;> decide

/-- **The spelling of an option says its name and its value.** -/
theorem splitEquals_spelled {name : String} (attached : Option String) (h : '=' ∉ name.toList) :
    ∃ cs, (spelled name attached).toList = '-' :: '-' :: cs ∧ splitEquals cs = (name, attached) := by
  have hall : ∀ c ∈ name.toList, (c != '=') = true := by
    intro c hc
    simp only [bne_iff_ne, ne_eq]
    intro heq
    exact h (heq ▸ hc)
  cases attached with
  | none =>
    refine ⟨name.toList, ?_, ?_⟩
    · unfold spelled
      rw [String.toList_append]
      rfl
    · have hdrop : name.toList.dropWhile (· != '=') = [] := List.dropWhile_eq_nil_iff.mpr hall
      unfold splitEquals
      rw [hdrop, String.ofList_toList]
  | some value =>
    refine ⟨name.toList ++ '=' :: value.toList, ?_, ?_⟩
    · unfold spelled
      rw [String.toList_append, String.toList_append, String.toList_append, List.append_assoc,
        List.append_assoc]
      rfl
    · have hdrop : (name.toList ++ '=' :: value.toList).dropWhile (· != '=') =
          '=' :: value.toList := by
        rw [List.dropWhile_append_of_pos hall]
        rfl
      have htake : (name.toList ++ '=' :: value.toList).takeWhile (· != '=') = name.toList := by
        rw [List.takeWhile_append_of_pos hall]
        simp
      unfold splitEquals
      rw [hdrop, htake]
      show (String.ofList name.toList, some (String.ofList value.toList)) = (name, some value)
      rw [String.ofList_toList, String.ofList_toList]

theorem spelled_inj {name name' : String} {a a' : Argument} {attached : Option String}
    (attached' : Option String) (h : Argument.ofLong? name = some a) (h' : Argument.ofLong? name' = some a')
    (heq : spelled name attached = spelled name' attached') :
    a = a' ∧ attached = attached' := by
  obtain ⟨cs, hcs, hsplit⟩ := splitEquals_spelled attached (not_mem_of_ofLong? h)
  obtain ⟨cs', hcs', hsplit'⟩ := splitEquals_spelled attached' (not_mem_of_ofLong? h')
  rw [heq, hcs'] at hcs
  obtain rfl : cs' = cs := by simpa using hcs
  rw [hsplit] at hsplit'
  obtain ⟨rfl, rfl⟩ := Prod.mk.inj hsplit'
  exact ⟨Option.some.inj (h.symm.trans h'), rfl⟩

theorem spelled_ne_separator {name : String} {a : Argument} (attached : Option String)
    (h : Argument.ofLong? name = some a) : spelled name attached ≠ "--" := by
  intro heq
  obtain ⟨cs, hcs, hsplit⟩ := splitEquals_spelled attached (not_mem_of_ofLong? h)
  rw [heq] at hcs
  obtain rfl : [] = cs := by simpa using hcs
  obtain rfl : "" = name := congrArg Prod.fst hsplit
  cases h

theorem not_isPlain_spelled {name : String} {a : Argument} (attached : Option String)
    (h : Argument.ofLong? name = some a) : ¬ IsPlain (spelled name attached) := by
  intro hplain
  obtain ⟨cs, hcs, -⟩ := splitEquals_spelled attached (not_mem_of_ofLong? h)
  exact hplain _ _ hcs

theorem not_isPlain_separator : ¬ IsPlain "--" := by
  intro hplain
  exact hplain '-' [] rfl

/-- A command line starts with two hyphens, with a source directory, or with an option. -/
theorem Spells.cases_head {argument : String} {rest : List String}
    {given : List (Argument × String)} (h : Spells (argument :: rest) given) :
    (argument = "--" ∧ given = rest.map fun v => (.source, v)) ∨
      (IsPlain argument ∧ ∃ later, given = (.source, argument) :: later ∧ Spells rest later) ∨
      ∃ name a attached, Argument.ofLong? name = some a ∧ argument = spelled name attached := by
  cases h with
  | places => exact .inl ⟨rfl, rfl⟩
  | place hvalue hrest => exact .inr (.inl ⟨hvalue, _, rfl, hrest⟩)
  | switch hname _ _ => exact .inr (.inr ⟨_, _, none, hname, rfl⟩)
  | attached hname _ _ => exact .inr (.inr ⟨_, _, some _, hname, rfl⟩)
  | separate hname _ _ _ => exact .inr (.inr ⟨_, _, none, hname, rfl⟩)

theorem Spells.separator_inv {rest : List String} {given : List (Argument × String)}
    (h : Spells ("--" :: rest) given) : given = rest.map fun v => (.source, v) := by
  rcases h.cases_head with ⟨-, hgiven⟩ | ⟨hplain, -⟩ | ⟨name, a, attached, hname, heq⟩
  · exact hgiven
  · exact absurd hplain not_isPlain_separator
  · exact absurd heq.symm (spelled_ne_separator attached hname)

theorem Spells.place_inv {value : String} {rest : List String} {given : List (Argument × String)}
    (hvalue : IsPlain value) (h : Spells (value :: rest) given) :
    ∃ later, given = (.source, value) :: later ∧ Spells rest later := by
  rcases h.cases_head with ⟨rfl, -⟩ | ⟨-, hlater⟩ | ⟨name, a, attached, hname, rfl⟩
  · exact absurd hvalue not_isPlain_separator
  · exact hlater
  · exact absurd hvalue (not_isPlain_spelled attached hname)

/-- An option is set to the value behind its equals sign, to the next argument, or has no value. -/
theorem Spells.option_inv {name : String} {a : Argument} (attached : Option String)
    {rest : List String} {given : List (Argument × String)} (hname : Argument.ofLong? name = some a)
    (h : Spells (spelled name attached :: rest) given) :
    ∃ value tail later, given = (a, value) :: later ∧ Spells tail later ∧
      (a.takesValue = attached.isSome → value = attached.getD "" ∧ tail = rest) ∧
      (a.takesValue ≠ attached.isSome → rest = value :: tail) := by
  generalize harguments : spelled name attached :: rest = arguments at h
  have hnot {b : Argument} (hb : b = .skipCompile ∨ b = .verbose) : b.takesValue = false := by
    rcases hb with rfl | rfl <;> rfl
  cases h with
  | nil => cases harguments
  | places values =>
    exact absurd (List.cons.inj harguments).1 (spelled_ne_separator attached hname)
  | switch hname' ha hrest =>
    obtain ⟨hhead, rfl⟩ := List.cons.inj harguments
    obtain ⟨rfl, rfl⟩ := spelled_inj none hname hname' hhead
    refine ⟨_, _, _, rfl, hrest, fun _ => ⟨rfl, rfl⟩, fun hne => ?_⟩
    exact absurd (hnot ha) hne
  | attached hname' ha hrest =>
    obtain ⟨hhead, rfl⟩ := List.cons.inj harguments
    obtain ⟨rfl, rfl⟩ := spelled_inj (some _) hname hname' hhead
    refine ⟨_, _, _, rfl, hrest, fun _ => ⟨rfl, rfl⟩, fun hne => ?_⟩
    exact absurd ha hne
  | separate hname' ha _ hrest =>
    obtain ⟨hhead, rfl⟩ := List.cons.inj harguments
    obtain ⟨rfl, rfl⟩ := spelled_inj none hname hname' hhead
    refine ⟨_, _, _, rfl, hrest, fun heq => ?_, fun _ => rfl⟩
    rw [ha] at heq
    cases heq
  | place hvalue _ =>
    rw [← (List.cons.inj harguments).1] at hvalue
    exact absurd hvalue (not_isPlain_spelled attached hname)

/-- **Arguments spell at most one list of settings.** -/
theorem Spells.unique {arguments : List String} {given other : List (Argument × String)}
    (h : Spells arguments given) (h' : Spells arguments other) : other = given := by
  induction h generalizing other with
  | nil => cases h'; rfl
  | places values => exact h'.separator_inv
  | switch hname ha hrest ih =>
    obtain ⟨value, tail, later, rfl, hlater, hsame, -⟩ :=
      h'.option_inv none hname
    obtain ⟨rfl, rfl⟩ := hsame (by rcases ha with rfl | rfl <;> rfl)
    rw [ih hlater]
    rfl
  | attached hname ha hrest ih =>
    obtain ⟨value, tail, later, rfl, hlater, hsame, -⟩ :=
      h'.option_inv (some _) hname
    obtain ⟨rfl, rfl⟩ := hsame ha
    rw [ih hlater]
  | separate hname ha hvalue hrest ih =>
    obtain ⟨value, tail, later, rfl, hlater, -, hnext⟩ :=
      h'.option_inv none hname
    obtain ⟨rfl, rfl⟩ := List.cons.inj (hnext (by rw [ha]; exact Bool.noConfusion))
    rw [ih hlater]
  | place hvalue hrest ih =>
    obtain ⟨later, rfl, hlater⟩ := h'.place_inv hvalue
    rw [ih hlater]

end ContractBindings.CommandLine
