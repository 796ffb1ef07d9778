import Mathlib.Data.List.Induction
import ContractBindings.Manifest
import ContractBindings.Proofs.Fallible

/-!
# What a manifest says

`Manifest.ofEntries` folds the entries of a document into a manifest and stops at the first one that has
no place in it.  Here the same is said key by key:

* `isManifest entries`: every key is one of the five of a manifest, the value of `dialect` is a dialect
  and every other value is a text.  A dialect is a table, an array whose elements stand for its two keys
  in order, or a date, which says nothing; keys that it does not have are ignored.
* `ofEntries_eq_ok_iff`: exactly these entries are accepted, and the manifest is `said entries`: under
  each key stands the text of the last entry with that key, and nothing where there is none.
* `settings? files source`: the entries of the manifest of a source directory, none of them if there is
  no such file, and `none` if it cannot be read as a manifest.  `load_eq_ok_iff` is the law of `load`.
-/

set_option autoImplicit false

namespace ContractBindings.Manifest

open Binding

/-! ## Entries by their keys -/

/-- The value of the last entry with a key. -/
def valueOf? (entries : Toml.Entries) (key : String) : Option Toml := entries.reverse.lookup key

/-- The text that a value is. -/
def text? : Toml → Option String
  | .string text => some text
  | _ => none

/-- The text under a key. -/
def textAt? (entries : Toml.Entries) (key : String) : Option String :=
  (valueOf? entries key).bind text?

/-- The entries of a dialect; the elements of an array stand for its keys, in order. -/
def dialectEntries? : Toml → Option Toml.Entries
  | .table entries => some entries
  | .array elements => some (dialectKeys.zip elements)
  | .dateTime => some []
  | _ => none

/-- The text under a key of the dialect. -/
def dialectTextAt? (entries : Toml.Entries) (key : String) : Option String :=
  (valueOf? entries "dialect").bind fun value =>
    (dialectEntries? value).bind fun dialect => textAt? dialect key

/-- The entry is one of a dialect, or is ignored there. -/
def isDialectEntry (e : String × Toml) : Bool := !dialectKeys.contains e.1 || (text? e.2).isSome

/-- The value is a dialect. -/
def isDialect (value : Toml) : Bool :=
  match dialectEntries? value with
  | some entries => entries.all isDialectEntry
  | none => false

/-- The entry is one of a manifest. -/
def isSetting (e : String × Toml) : Bool :=
  if e.1 = "dialect" then isDialect e.2 else keys.contains e.1 && (text? e.2).isSome

/-- The entries are those of a manifest. -/
def isManifest (entries : Toml.Entries) : Bool := entries.all isSetting

/-- The dialect that entries say. -/
def saidDialect (entries : Toml.Entries) : Dialect where
  runtimeModule := (textAt? entries "runtime_module").getD Dialect.default.runtimeModule
  runnerParameter := (textAt? entries "runner_param").getD Dialect.default.runnerParameter

/-- The manifest that entries say. -/
def said (entries : Toml.Entries) : Manifest where
  artifacts := (textAt? entries "artifacts").map Path.ofString
  artifactExtension := textAt? entries "artifact_extension"
  bindingExtension := textAt? entries "binding_extension"
  solc := (textAt? entries "solc").map Path.ofString
  dialect := (valueOf? entries "dialect").map fun v => saidDialect ((dialectEntries? v).getD [])

theorem valueOf?_concat (entries : Toml.Entries) (k : String) (v : Toml) (key : String) :
    valueOf? (entries ++ [(k, v)]) key = if key = k then some v else valueOf? entries key := by
  unfold valueOf?
  rw [List.reverse_append, List.reverse_singleton, List.singleton_append, List.lookup_cons]
  by_cases h : key = k
  · simp [h]
  · rw [if_neg h, beq_false_of_ne h]

theorem textAt?_concat (entries : Toml.Entries) (k : String) (v : Toml) (key : String) :
    textAt? (entries ++ [(k, v)]) key = if key = k then text? v else textAt? entries key := by
  unfold textAt?
  rw [valueOf?_concat]
  by_cases h : key = k <;> simp [h]

/-! ## Reading entries in order -/

/--
**A step that takes what entries say to what they say with one more takes all entries to what they say.**
The step fails at the first entry that is not fit.
-/
theorem foldlM_eq_ok_iff {ε β : Type} {step : β → String × Toml → Except ε β}
    {isFit : String × Toml → Bool} (saidBy : Toml.Entries → β)
    (hstep : ∀ entries e b,
      step (saidBy entries) e = .ok b ↔ isFit e = true ∧ b = saidBy (entries ++ [e]))
    (entries : Toml.Entries) (b : β) :
    entries.foldlM step (saidBy []) = .ok b ↔ entries.all isFit = true ∧ b = saidBy entries := by
  induction entries using List.reverseRecOn generalizing b with
  | nil => simp [pure, Except.pure, eq_comm]
  | append_singleton entries e ih =>
    have hlast : ∀ c, [e].foldlM step c = step c e := fun c => by
      rw [List.foldlM_cons]
      simp only [List.foldlM_nil, bind_pure]
    rw [List.foldlM_append, bind_eq_ok, List.all_append, List.all_cons, List.all_nil, Bool.and_true,
      Bool.and_eq_true]
    constructor
    · rintro ⟨c, hc, hb⟩
      obtain ⟨hall, rfl⟩ := (ih c).mp hc
      obtain ⟨hfit, rfl⟩ := (hstep _ _ _).mp (hlast (saidBy entries) ▸ hb)
      exact ⟨⟨hall, hfit⟩, rfl⟩
    · rintro ⟨⟨hall, hfit⟩, rfl⟩
      refine ⟨saidBy entries, (ih _).mpr ⟨hall, rfl⟩, ?_⟩
      rw [hlast]
      exact (hstep _ _ _).mpr ⟨hfit, rfl⟩

/-- What reads a text takes the entry to what is said with it, or fails where there is none. -/
theorem map_read_eq_ok_iff {ε α β : Type} {read : Except ε α} {text : Option String} {f : String → α}
    (hread : ∀ a, read = .ok a ↔ ∃ t, text = some t ∧ a = f t) {set : α → β} {next : β}
    (hset : ∀ t, text = some t → set (f t) = next) (b : β) :
    read.map set = .ok b ↔ text.isSome = true ∧ b = next := by
  simp only [map_eq_ok_iff, hread]
  constructor
  · rintro ⟨_, ⟨t, ht, rfl⟩, rfl⟩
    exact ⟨by rw [ht]; rfl, hset t ht⟩
  · rintro ⟨htext, rfl⟩
    obtain ⟨t, ht⟩ := Option.isSome_iff_exists.mp htext
    exact ⟨f t, ⟨t, ht, rfl⟩, hset t ht⟩

theorem readString_eq_ok_iff {v : Toml} (text : String) :
    readString v = .ok text ↔ ∃ t, text? v = some t ∧ text = t := by
  cases v <;> simp [readString, text?, eq_comm]

theorem readPath_eq_ok_iff {v : Toml} (p : Path) :
    readPath v = .ok p ↔ ∃ t, text? v = some t ∧ p = Path.ofString t := by
  cases v <;> simp [readPath, text?, eq_comm]

/-! ## Reading a dialect -/

theorem readDialectEntry_eq_ok_iff (entries : Toml.Entries) (key : String) (v : Toml)
    (d : Dialect) :
    readDialectEntry (saidDialect entries) key v = .ok d ↔
      isDialectEntry (key, v) = true ∧ d = saidDialect (entries ++ [(key, v)]) := by
  unfold readDialectEntry
  by_cases hmodule : key = "runtime_module"
  · subst hmodule
    have hfit : isDialectEntry ("runtime_module", v) = (text? v).isSome := rfl
    rw [if_pos rfl, hfit]
    exact map_read_eq_ok_iff readString_eq_ok_iff
      (fun t ht => by simp [saidDialect, textAt?_concat, ht]) d
  by_cases hrunner : key = "runner_param"
  · subst hrunner
    have hfit : isDialectEntry ("runner_param", v) = (text? v).isSome := rfl
    rw [if_neg hmodule, if_pos rfl, hfit]
    exact map_read_eq_ok_iff readString_eq_ok_iff
      (fun t ht => by simp [saidDialect, textAt?_concat, ht]) d
  rw [if_neg hmodule, if_neg hrunner]
  simp [isDialectEntry, saidDialect, textAt?_concat, dialectKeys, hmodule, hrunner, eq_comm]

theorem foldlM_readDialectEntry (entries : Toml.Entries) (d : Dialect) :
    entries.foldlM (fun d (key, value) => readDialectEntry d key value) Dialect.default = .ok d ↔
      entries.all isDialectEntry = true ∧ d = saidDialect entries :=
  foldlM_eq_ok_iff saidDialect
    (fun entries e d => readDialectEntry_eq_ok_iff entries e.1 e.2 d) entries d

theorem readDialect_eq_ok_iff (v : Toml) (d : Dialect) :
    readDialect v = .ok d ↔
      isDialect v = true ∧ d = saidDialect ((dialectEntries? v).getD []) := by
  cases v with
  | table entries => exact foldlM_readDialectEntry entries d
  | array elements => exact foldlM_readDialectEntry (dialectKeys.zip elements) d
  | dateTime => exact foldlM_readDialectEntry [] d
  | string | integer | real | boolean => simp [readDialect, isDialect, dialectEntries?]

/-! ## Reading a manifest -/

theorem readEntry_eq_ok_iff (entries : Toml.Entries) (key : String) (v : Toml) (m : Manifest) :
    readEntry (said entries) key v = .ok m ↔
      isSetting (key, v) = true ∧ m = said (entries ++ [(key, v)]) := by
  unfold readEntry
  by_cases hartifacts : key = "artifacts"
  · subst hartifacts
    have hfit : isSetting ("artifacts", v) = (text? v).isSome := rfl
    rw [if_pos rfl, hfit]
    exact map_read_eq_ok_iff readPath_eq_ok_iff
      (fun t ht => by simp [said, textAt?_concat, valueOf?_concat, ht]) m
  by_cases hartifact : key = "artifact_extension"
  · subst hartifact
    have hfit : isSetting ("artifact_extension", v) = (text? v).isSome := rfl
    rw [if_neg hartifacts, if_pos rfl, hfit]
    exact map_read_eq_ok_iff readString_eq_ok_iff
      (fun t ht => by simp [said, textAt?_concat, valueOf?_concat, ht]) m
  by_cases hbinding : key = "binding_extension"
  · subst hbinding
    have hfit : isSetting ("binding_extension", v) = (text? v).isSome := rfl
    rw [if_neg hartifacts, if_neg hartifact, if_pos rfl, hfit]
    exact map_read_eq_ok_iff readString_eq_ok_iff
      (fun t ht => by simp [said, textAt?_concat, valueOf?_concat, ht]) m
  by_cases hsolc : key = "solc"
  · subst hsolc
    have hfit : isSetting ("solc", v) = (text? v).isSome := rfl
    rw [if_neg hartifacts, if_neg hartifact, if_neg hbinding, if_pos rfl, hfit]
    exact map_read_eq_ok_iff readPath_eq_ok_iff
      (fun t ht => by simp [said, textAt?_concat, valueOf?_concat, ht]) m
  rw [if_neg hartifacts, if_neg hartifact, if_neg hbinding, if_neg hsolc]
  by_cases hdialect : key = "dialect"
  · subst hdialect
    rw [if_pos rfl]
    simp only [map_eq_ok_iff, readDialect_eq_ok_iff]
    simp [isSetting, said, textAt?_concat, valueOf?_concat, eq_comm (a := m)]
  · rw [if_neg hdialect]
    simp [isSetting, keys, hartifacts, hartifact, hbinding, hsolc, hdialect]

/-- **The manifests that are accepted, and what they are.** -/
theorem ofEntries_eq_ok_iff (entries : Toml.Entries) (m : Manifest) :
    ofEntries entries = .ok m ↔ isManifest entries = true ∧ m = said entries :=
  foldlM_eq_ok_iff said
    (fun entries e m => readEntry_eq_ok_iff entries e.1 e.2 m) entries m

/-! ## The manifest of a source directory -/

/--
The entries of the manifest of a source directory: none without such a file, `none` if it is not the
text of a manifest.
-/
def settings? (files : FileSystem) (source : Path) : Option Toml.Entries :=
  if files.pathExists (pathIn source) then
    match files.textAt (pathIn source) with
    | .ok text => (Toml.parse text).filter isManifest
    | .error _ => none
  else some []

/-- **What is loaded is what the entries of the manifest say.** -/
theorem load_eq_ok_iff (files : FileSystem) (source : Path) (m : Option Manifest) :
    load files source = .ok m ↔
      ∃ entries, settings? files source = some entries ∧
        m = if files.pathExists (pathIn source) then some (said entries) else none := by
  unfold load settings?
  by_cases hexists : files.pathExists (pathIn source) = true
  · simp only [hexists, Bool.not_true, Bool.false_eq_true, if_false, if_true]
    cases htext : files.textAt (pathIn source) with
    | error e => simp
    | ok text =>
      cases hparse : Toml.parse text with
      | none => simp [hparse]
      | some entries =>
        cases hof : ofEntries entries with
        | error e =>
          have hnot : ¬ isManifest entries = true := by
            intro h
            have hok := (ofEntries_eq_ok_iff entries _).mpr ⟨h, rfl⟩
            rw [hof] at hok
            cases hok
          simp [hparse, hof, hnot]
        | ok said' =>
          obtain ⟨h, rfl⟩ := (ofEntries_eq_ok_iff entries _).mp hof
          simp [hparse, hof, h, eq_comm (a := m)]
  · simp [hexists, eq_comm]

theorem exists_load_of_settings? {files : FileSystem} {source : Path} {entries : Toml.Entries}
    (h : settings? files source = some entries) :
    ∃ m, load files source = .ok m ∧ m.getD {} = said entries := by
  have hload := (load_eq_ok_iff files source _).mpr ⟨entries, h, rfl⟩
  refine ⟨_, hload, ?_⟩
  unfold settings? at h
  split
  · rfl
  · rename_i hexists
    rw [if_neg hexists] at h
    cases h
    rfl

end ContractBindings.Manifest
