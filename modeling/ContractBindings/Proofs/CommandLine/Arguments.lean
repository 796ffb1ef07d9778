import Mathlib
import ContractBindings.Proofs.CommandLine.Spelling
import ContractBindings.Proofs.Fallible

/-!
# What an accepted command line says

`parse` settles an option only when the next argument is reached, so what it has read of a command line
is a list of settings with at most one more that is pending.

* `IsOptions given o`: the options are those that the settings say.  No argument is set twice, and of the
  two ways to give the source directory exactly one is used.
* `Progress.Reaches`: one argument moves the parser from one progress to another, and the settings that
  are spelled from the second on are those from the first on, less what has been judged in between
  (`reaches_readArgument`).
* `exists_spells_of_parse`: so every command line that asks for a run spells settings, and its options are
  theirs.

Nothing is said here about command lines that are refused.
-/

set_option autoImplicit false

namespace ContractBindings.CommandLine

/-! ## Options -/

/-- The two ways to give the source directory. -/
def Argument.isSource (a : Argument) : Bool := a == .source || a == .sourceOption

/-- The options are those that the settings say. -/
structure IsOptions (given : List (Argument × String)) (o : Options) : Prop where
  distinct : (given.map Prod.fst).Nodup
  source : ∃ a v, given.filter (fun g => g.1.isSource) = [(a, v)] ∧ o.source = Path.ofString v
  artifacts : o.artifacts = (given.lookup .artifacts).map Path.ofString
  solc : o.solc = (given.lookup .solc).map Path.ofString
  runtimeModule : o.runtimeModule = given.lookup .runtimeModule
  runnerParameter : o.runnerParameter = given.lookup .runnerParameter
  skipCompile : o.skipCompile = true ↔ .skipCompile ∈ given.map Prod.fst
  verbose : o.verbose = true ↔ .verbose ∈ given.map Prod.fst

/-! ## Progress -/

/-- The settings that arguments spell where one argument is still pending. -/
inductive Follows : Option (Argument × Option String) → List String →
    List (Argument × String) → Prop where
  | settled {arguments : List String} {given : List (Argument × String)}
      (h : Spells arguments given) : Follows none arguments given
  | valued {a : Argument} {v : String} {arguments : List String} {given : List (Argument × String)}
      (h : Spells arguments given) : Follows (some (a, some v)) arguments ((a, v) :: given)
  | awaited {a : Argument} {v : String} {arguments : List String}
      {given : List (Argument × String)} (hv : IsPlain v) (h : Spells arguments given) :
      Follows (some (a, none)) (v :: arguments) ((a, v) :: given)

namespace Progress

/-- No argument was judged twice, and only one that has a value is pending. -/
structure IsValid (p : Progress) : Prop where
  distinct : (p.given.map Prod.fst).Nodup
  waits : ∀ a v, p.pending = some (a, v) → a.takesValue = true

/-- The setting that is pending, if its value has been read. -/
def seen (p : Progress) : List (Argument × String) :=
  match p.pending with
  | some (a, some v) => [(a, v)]
  | _ => []

/-- Reading the arguments `read` leads from `p` to `q` without a setting lost or made up. -/
def Reaches (p : Progress) (read : List String) (q : Progress) : Prop :=
  ∀ rest given, Follows q.pending rest given →
    ∃ more, Follows p.pending (read ++ rest) more ∧ p.given ++ more = q.given ++ given

theorem Reaches.trans {p q r : Progress} {xs ys : List String} (h₁ : p.Reaches xs q)
    (h₂ : q.Reaches ys r) : p.Reaches (xs ++ ys) r := by
  intro rest given hrest
  obtain ⟨more, hmore, heq⟩ := h₂ rest given hrest
  obtain ⟨all, hall, heq'⟩ := h₁ (ys ++ rest) more hmore
  refine ⟨all, ?_, heq'.trans heq⟩
  rw [List.append_assoc]
  exact hall

theorem has_iff (p : Progress) (a : Argument) : p.has a = true ↔ a ∈ p.given.map Prod.fst := by
  unfold has
  rw [List.any_eq_true, List.mem_map]
  simp only [beq_iff_eq]

/-- What is accepted is a setting of an argument that had none. -/
theorem accept_ok {p q : Progress} {a : Argument} {value : Option String}
    (h : p.accept a value = .ok q) :
    (a.takesValue = true → value.isSome) ∧ a ∉ p.given.map Prod.fst ∧
      q = { p with given := p.given ++ [(a, value.getD "")] } := by
  unfold accept at h
  split at h
  · cases h
  · rename_i hvalue
    split at h
    · cases h
    · rename_i hhas
      split at h
      · cases h
      · refine ⟨?_, ?_, (Except.ok.inj h).symm⟩
        · intro ha
          cases value with
          | none => simp [ha] at hvalue
          | some v => rfl
        · rw [← has_iff]
          exact hhas

theorem IsValid.accept {p q : Progress} {a : Argument} {value : Option String} (hp : p.IsValid)
    (h : p.accept a value = .ok q) : q.IsValid := by
  obtain ⟨-, hnot, rfl⟩ := accept_ok h
  refine ⟨?_, hp.waits⟩
  show ((p.given ++ [(a, value.getD "")]).map Prod.fst).Nodup
  rw [List.map_append, List.nodup_append]
  refine ⟨hp.distinct, List.nodup_singleton _, ?_⟩
  intro b hb c hc heq
  obtain rfl : c = a := List.mem_singleton.mp hc
  exact hnot (heq ▸ hb)

/-- **Settling judges the pending argument, whose value must have been read.** -/
theorem settle_ok {p q : Progress} (hp : p.IsValid) (h : p.settle = .ok q) :
    q.IsValid ∧ q.pending = none ∧ q.given = p.given ++ p.seen ∧
      ∀ arguments given, Spells arguments given → Follows p.pending arguments (p.seen ++ given) := by
  unfold settle at h
  unfold seen
  cases hpending : p.pending with
  | none =>
    rw [hpending] at h
    cases h
    refine ⟨hp, hpending, (List.append_nil _).symm, ?_⟩
    intro arguments given hspells
    exact .settled hspells
  | some g =>
    obtain ⟨a, value⟩ := g
    rw [hpending] at h
    have hcleared : Progress.IsValid { p with pending := none } := ⟨hp.distinct, by simp⟩
    obtain ⟨hvalue, -, rfl⟩ := accept_ok h
    cases value with
    | none => simpa using hvalue (hp.waits a none hpending)
    | some v =>
      refine ⟨hcleared.accept h, rfl, rfl, ?_⟩
      intro arguments given hspells
      exact .valued hspells

theorem reaches_settle {p q : Progress} (hp : p.IsValid) (h : p.settle = .ok q) :
    p.Reaches [] q := by
  obtain ⟨-, hpending, hgiven, hfollows⟩ := settle_ok hp h
  intro rest given hrest
  rw [hpending] at hrest
  cases hrest with
  | settled hspells =>
    refine ⟨p.seen ++ given, hfollows rest given hspells, ?_⟩
    rw [hgiven, List.append_assoc]

/-- The two ways to read the source directory agree with the settings. -/
theorem mem_of_source? {p : Progress} {v : String} (h : p.source? = some v) :
    ∃ a, Argument.isSource a = true ∧ (a, v) ∈ p.given := by
  have hmem {a : Argument} (ha : p.given.lookup a = some v) : (a, v) ∈ p.given := by
    obtain ⟨before, after, hsplit, -⟩ := List.lookup_eq_some_iff.mp ha
    rw [hsplit]
    simp
  unfold source? value? at h
  split at h
  · rename_i w hw
    cases h
    exact ⟨.source, rfl, hmem hw⟩
  · exact ⟨.sourceOption, rfl, hmem h⟩

theorem map_fst_filter_isSource (p : Progress) :
    (p.given.filter fun g => g.1.isSource).map Prod.fst = p.sources := by
  unfold sources
  rw [List.filter_map]
  rfl

/-- **The options at the end are those that the judged arguments say.** -/
theorem finish_ok {p : Progress} {o : Options} (hp : p.IsValid) (h : p.finish = .ok (.run o)) :
    ∃ q, p.settle = .ok q ∧ IsOptions q.given o := by
  unfold finish at h
  obtain ⟨q, hsettle, h⟩ := bind_eq_ok.mp h
  refine ⟨q, hsettle, ?_⟩
  have hq := (settle_ok hp hsettle).1
  have hkeys := map_fst_filter_isSource q
  split at h
  · cases h
  · cases h
  · rename_i v hv hone
    cases h
    refine ⟨hq.distinct, ?_, rfl, rfl, rfl, rfl, q.has_iff .skipCompile, q.has_iff .verbose⟩
    obtain ⟨a, ha, hmem⟩ := mem_of_source? hv
    have hin : (a, v) ∈ q.given.filter fun g => g.1.isSource :=
      List.mem_filter.mpr ⟨hmem, ha⟩
    refine ⟨a, v, ?_, rfl⟩
    -- two of them would be two sources, which is a conflict
    cases hfilter : q.given.filter (fun g => g.1.isSource) with
    | nil => simp [hfilter] at hin
    | cons g rest =>
      cases rest with
      | nil =>
        rw [hfilter] at hin
        rw [List.mem_singleton.mp hin]
      | cons g' rest =>
        rw [hfilter] at hkeys
        exact absurd hkeys.symm (hone _ _ _)

/-! ## One argument -/

/-- A source directory is pending when what was pending before it has been judged. -/
theorem place_ok {p r : Progress} {argument : String} (hp : p.IsValid)
    (h : p.place argument = .ok r) :
    ∃ q, p.settle = .ok q ∧ r.IsValid ∧ r.pending = some (.source, some argument) ∧
      r.given = q.given := by
  unfold place at h
  split at h
  · cases h
  · obtain ⟨q, hsettle, h⟩ := bind_eq_ok.mp h
    cases h
    refine ⟨q, hsettle, ⟨(settle_ok hp hsettle).1.distinct, ?_⟩, rfl, rfl⟩
    intro a v hav
    cases hav
    rfl

theorem reaches_place {p q : Progress} {argument : String} (hp : p.IsValid) (hplain : IsPlain argument)
    (h : p.place argument = .ok q) : q.IsValid ∧ p.Reaches [argument] q := by
  obtain ⟨r, hsettle, hq, hpending, hgiven⟩ := place_ok hp h
  refine ⟨hq, (reaches_settle hp hsettle).trans ?_⟩
  intro rest given hrest
  rw [hpending] at hrest
  cases hrest with
  | valued hspells =>
    refine ⟨_, ?_, by rw [hgiven]⟩
    rw [(settle_ok hp hsettle).2.1]
    exact .settled (.place hplain hspells)

end Progress

theorem splitEquals_none {cs : List Char} {name : String} (h : splitEquals cs = (name, none)) :
    String.ofList cs = name := by
  unfold splitEquals at h
  split at h
  · cases h
    rfl
  · cases h

theorem splitEquals_some {cs : List Char} {name value : String}
    (h : splitEquals cs = (name, some value)) :
    String.ofList cs = name ++ "=" ++ value := by
  unfold splitEquals at h
  split at h
  · cases h
  · rename_i c rest hdrop
    cases h
    have hc : c = '=' := by
      have hhead := List.head?_dropWhile_not (· != '=') cs
      rw [hdrop] at hhead
      simpa using hhead
    subst hc
    have hcs : cs = cs.takeWhile (· != '=') ++ '=' :: rest := by
      rw [← hdrop, List.takeWhile_append_dropWhile]
    apply String.toList_inj.mp
    rw [String.toList_append, String.toList_append]
    simp only [String.toList_ofList]
    rw [List.append_assoc]
    exact hcs

/-- An argument that starts with two hyphens is a long option. -/
theorem eq_long {argument : String} {cs : List Char} (h : argument.toList = '-' :: '-' :: cs) :
    argument = "--" ++ String.ofList cs := by
  apply String.toList_inj.mp
  rw [h, String.toList_append, String.toList_ofList, String.toList_ofList]
  rfl

/-- An accepted option is the next setting. -/
theorem Progress.reaches_accept {p q : Progress} {a : Argument} {name : String}
    {attached : Option String} (hpending : p.pending = none)
    (hname : Argument.ofLong? name = some a) (ha : a ≠ .help ∧ a ≠ .version)
    (hvalue : a.takesValue = attached.isSome) (h : p.accept a attached = .ok q) :
    p.Reaches [spelled name attached] q := by
  obtain ⟨-, -, rfl⟩ := accept_ok h
  intro rest given hrest
  rw [hpending]
  replace hrest : Follows p.pending rest given := hrest
  rw [hpending] at hrest
  cases hrest with
  | settled hspells =>
    refine ⟨(a, attached.getD "") :: given, ?_, ?_⟩
    · cases attached with
      | some v => exact .settled (.attached hname hvalue hspells)
      | none =>
        refine .settled (.switch hname ?_ hspells)
        cases a <;> simp_all [Argument.takesValue]
    · show p.given ++ (a, attached.getD "") :: given = p.given ++ [(a, attached.getD "")] ++ given
      rw [List.append_assoc]
      rfl

/-- **What reading a known option leads to**, once what was pending has been judged: it is pending itself
while its value is still to come, and otherwise it asks for a text or is accepted at once. -/
theorem readKnown_cases {p : Progress} {a : Argument} {attached : Option String} {r : Reading}
    (h : readKnown p a attached = .ok r) :
    ∃ q, p.settle = .ok q ∧
      ((a.takesValue = true ∧ attached = none ∧ r = .going { q with pending := some (a, none) }) ∨
        a.takesValue = attached.isSome ∧
          ((a = .help ∧ r = .done .help) ∨ (a = .version ∧ r = .done .version) ∨
            a ≠ .help ∧ a ≠ .version ∧ ∃ q', q.accept a attached = .ok q' ∧ r = .going q')) := by
  by_cases hvalue : a.takesValue = attached.isSome
  · unfold readKnown at h
    split at h
    · cases h
    · rename_i htakes
      rw [htakes] at hvalue
      cases hvalue
    · obtain ⟨q, hsettle, h⟩ := bind_eq_ok.mp h
      refine ⟨q, hsettle, .inr ⟨hvalue, ?_⟩⟩
      split at h
      · cases h
        exact .inl ⟨rfl, rfl⟩
      · cases h
        exact .inr (.inl ⟨rfl, rfl⟩)
      · rename_i hhelp hversion
        obtain ⟨q', haccept, h⟩ := bind_eq_ok.mp h
        cases h
        exact .inr (.inr ⟨hhelp, hversion, q', haccept, rfl⟩)
  · cases attached with
    | some v =>
      have htakes : a.takesValue = false := by simpa using hvalue
      simp only [readKnown, htakes] at h
      cases h
    | none =>
      have htakes : a.takesValue = true := by simpa using hvalue
      simp only [readKnown, htakes] at h
      obtain ⟨q, hsettle, h⟩ := bind_eq_ok.mp h
      cases h
      exact ⟨q, hsettle, .inl ⟨htakes, rfl, rfl⟩⟩

theorem reaches_readKnown {p q : Progress} {a : Argument} {name : String} {attached : Option String}
    (hp : p.IsValid) (hname : Argument.ofLong? name = some a)
    (h : readKnown p a attached = .ok (.going q)) :
    q.IsValid ∧ p.Reaches [spelled name attached] q := by
  obtain ⟨r, hsettle, hcases⟩ := readKnown_cases h
  obtain ⟨hr, hpending, -, -⟩ := Progress.settle_ok hp hsettle
  rcases hcases with ⟨htakes, rfl, hq⟩ |
    ⟨hvalue, ⟨_, hq⟩ | ⟨_, hq⟩ | ⟨hhelp, hversion, q', haccept, hq⟩⟩
  · -- the value is still to come
    cases hq
    refine ⟨⟨hr.distinct, ?_⟩, (Progress.reaches_settle hp hsettle).trans ?_⟩
    · intro b v hbv
      cases hbv
      exact htakes
    · intro rest given hrest
      cases hrest with
      | awaited hplain hspells =>
        refine ⟨_, ?_, rfl⟩
        rw [hpending]
        exact .settled (.separate hname htakes hplain hspells)
  · cases hq
  · cases hq
  · cases hq
    exact ⟨hr.accept haccept, (Progress.reaches_settle hp hsettle).trans
      (Progress.reaches_accept hpending hname ⟨hhelp, hversion⟩ hvalue haccept)⟩

theorem reaches_readLong {p q : Progress} {argument : String} {cs : List Char} (hp : p.IsValid)
    (hargument : argument.toList = '-' :: '-' :: cs) (h : readLong p cs = .ok (.going q)) :
    q.IsValid ∧ p.Reaches [argument] q := by
  unfold readLong at h
  rcases hsplit : splitEquals cs with ⟨name, attached⟩
  rw [hsplit] at h
  dsimp only at h
  have hspelled : argument = spelled name attached := by
    rw [eq_long hargument]
    cases attached with
    | none => rw [splitEquals_none hsplit]; rfl
    | some v => rw [splitEquals_some hsplit, ← String.append_assoc, ← String.append_assoc]; rfl
  split at h
  · rename_i a hname
    rw [hspelled]
    exact reaches_readKnown hp hname h
  · cases h

/-- Nothing is read on behind a short option, which asks for a text. -/
theorem readShort_ne_going {p q : Progress} {c : Char} : readShort p c ≠ .ok (.going q) := by
  intro h
  unfold readShort at h
  split at h
  · rename_i a ha
    have htext : a.takesValue = false ∧ (a = .help ∨ a = .version) := by
      unfold Argument.ofShort? at ha
      split at ha
      · cases ha
        exact ⟨rfl, .inl rfl⟩
      · split at ha
        · cases ha
          exact ⟨rfl, .inr rfl⟩
        · cases ha
    obtain ⟨r, -, ⟨htakes, -, -⟩ | ⟨-, ⟨-, hq⟩ | ⟨-, hq⟩ | ⟨hhelp, hversion, -⟩⟩⟩ := readKnown_cases h
    · rw [htext.1] at htakes
      cases htakes
    · cases hq
    · cases hq
    · exact htext.2.elim hhelp hversion
  · cases h

/-- **One argument is read as it is spelled.** -/
theorem reaches_readArgument {p q : Progress} {argument : String} (hp : p.IsValid)
    (h : readArgument p argument = .ok (.going q)) : q.IsValid ∧ p.Reaches [argument] q := by
  unfold readArgument at h
  split at h
  · rename_i cs hargument
    exact reaches_readLong hp hargument h
  · exact absurd h readShort_ne_going
  · -- the value that the pending option waits for
    rename_i a hpending hlong hshort
    cases h
    have hplain : IsPlain argument := by
      intro c cs hcs
      exact hshort c cs hcs
    refine ⟨⟨hp.distinct, ?_⟩, ?_⟩
    · intro b v hbv
      cases hbv
      exact hp.waits a none hpending
    · intro rest given hrest
      rw [hpending]
      cases hrest with
      | valued hspells => exact ⟨_, .awaited hplain hspells, rfl⟩
  · rename_i hlong hshort _
    have hplain : IsPlain argument := by
      intro c cs hcs
      exact hshort c cs hcs
    obtain ⟨r, hplace, hq⟩ := map_eq_ok_iff.mp h
    cases hq
    exact Progress.reaches_place hp hplain hplace

/-- What ends the reading early is no run. -/
theorem readKnown_ne_done {p : Progress} {a : Argument} {attached : Option String} {o : Options} :
    readKnown p a attached ≠ .ok (.done (.run o)) := by
  intro h
  obtain ⟨q, -, ⟨-, -, hr⟩ | ⟨-, ⟨-, hr⟩ | ⟨-, hr⟩ | ⟨-, -, q', -, hr⟩⟩⟩ := readKnown_cases h <;> cases hr

theorem readArgument_ne_done {p : Progress} {argument : String} {o : Options} :
    readArgument p argument ≠ .ok (.done (.run o)) := by
  intro h
  unfold readArgument at h
  split at h
  · unfold readLong at h
    split at h
    split at h
    · exact readKnown_ne_done h
    · cases h
  · unfold readShort at h
    split at h
    · exact readKnown_ne_done h
    · cases h
  · cases h
  · obtain ⟨r, -, hr⟩ := map_eq_ok_iff.mp h
    cases hr

/-! ## All arguments -/

/-- Behind two hyphens the settings are what is pending and then source directories. -/
theorem readPlaces_ok {p : Progress} {values : List String} {o : Options} (hp : p.IsValid)
    (h : readPlaces p values = .ok (.run o)) :
    ∃ q, p.settle = .ok q ∧ IsOptions (q.given ++ values.map fun v => (.source, v)) o := by
  induction values generalizing p with
  | nil =>
    obtain ⟨q, hsettle, ho⟩ := Progress.finish_ok hp h
    refine ⟨q, hsettle, ?_⟩
    rw [List.map_nil, List.append_nil]
    exact ho
  | cons value rest ih =>
    rw [readPlaces] at h
    obtain ⟨r, hplace, h⟩ := bind_eq_ok.mp h
    obtain ⟨q, hsettle, hr, hpending, hsame⟩ := Progress.place_ok hp hplace
    obtain ⟨q', hsettle', ho⟩ := ih hr h
    obtain ⟨-, -, hgiven, -⟩ := Progress.settle_ok hr hsettle'
    refine ⟨q, hsettle, ?_⟩
    rw [hgiven, hsame, Progress.seen, hpending, List.append_assoc] at ho
    exact ho

/-- **A command line that asks for a run is read as it is spelled, from any progress on.** -/
theorem follows_of_readArguments {p : Progress} {arguments : List String} {o : Options}
    (hp : p.IsValid) (h : readArguments p arguments = .ok (.run o)) :
    ∃ more, Follows p.pending arguments more ∧ IsOptions (p.given ++ more) o := by
  induction arguments generalizing p with
  | nil =>
    obtain ⟨q, hsettle, ho⟩ := Progress.finish_ok hp h
    obtain ⟨-, -, hgiven, hfollows⟩ := Progress.settle_ok hp hsettle
    refine ⟨p.seen ++ [], hfollows [] [] .nil, ?_⟩
    rw [List.append_nil, ← hgiven]
    exact ho
  | cons argument rest ih =>
    rw [readArguments] at h
    split at h
    · rename_i hend
      subst hend
      obtain ⟨q, hsettle, ho⟩ := readPlaces_ok hp h
      obtain ⟨-, -, hgiven, hfollows⟩ := Progress.settle_ok hp hsettle
      refine ⟨_, hfollows _ _ (.places rest), ?_⟩
      rw [← List.append_assoc, ← hgiven]
      exact ho
    · split at h
      · cases h
      · rename_i invocation hread
        cases h
        exact absurd hread readArgument_ne_done
      · rename_i q hread
        obtain ⟨hq, hreaches⟩ := reaches_readArgument hp hread
        obtain ⟨given, hgiven, ho⟩ := ih hq h
        obtain ⟨more, hmore, heq⟩ := hreaches rest given hgiven
        refine ⟨more, hmore, ?_⟩
        rw [heq]
        exact ho

/-- **Every command line that asks for a run spells settings, and its options are theirs.** -/
theorem exists_spells_of_parse {arguments : List String} {o : Options}
    (h : parse arguments = .ok (.run o)) :
    ∃ given, Spells arguments given ∧ IsOptions given o ∧
      ∀ other, Spells arguments other → other = given := by
  have hvalid : Progress.IsValid {} := ⟨List.nodup_nil, by simp⟩
  obtain ⟨given, hgiven, ho⟩ := follows_of_readArguments hvalid h
  cases hgiven with
  | settled hspells => exact ⟨given, hspells, ho, fun other => hspells.unique⟩

end ContractBindings.CommandLine
