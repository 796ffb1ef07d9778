import ContractBindings.Proofs.CommandLine.Settings
import ContractBindings.Proofs.Text.Encoding
import ContractBindings.Proofs.Toml.Distinct

/-!
# Which keys of a manifest are heeded

A manifest that is loaded carries the text of every key of its document, except in the `dialect` table:
there a key that a dialect does not have is dropped without a word, as are the elements of an array behind
the second and a date.

* `Carries`, `Heeds`: every key of a document is one of a manifest, which carries its text;
* `heeded`: what is left of a dialect without what is dropped; `readDialect_heeded`: it is read alike;
* `heeds_said`: a manifest carries every key of a document in which nothing is dropped.  Keys are distinct
  there, so there is no second value that would be lost;
* `load_heeds`: what is loaded carries what is left, and all of the document exactly if nothing is dropped;
  a key that is not known at the top level is refused;
* `not_heeds_misspelt`: a misspelt key of a dialect is lost.
-/

set_option autoImplicit false

namespace ContractBindings.Manifest

open Binding Text

/-! ## What a manifest carries -/

/-- A dialect has a text under a key. -/
inductive CarriesDialect (d : Dialect) : String → String → Prop where
  | runtimeModule : CarriesDialect d "runtime_module" d.runtimeModule
  | runnerParameter : CarriesDialect d "runner_param" d.runnerParameter

/-- A manifest has a text under a key, as a path where it is that of a file or a directory. -/
inductive Carries (m : Manifest) : String → String → Prop where
  | artifacts {text : String} (h : m.artifacts = some (Path.ofString text)) : Carries m "artifacts" text
  | artifactExtension {text : String} (h : m.artifactExtension = some text) :
    Carries m "artifact_extension" text
  | bindingExtension {text : String} (h : m.bindingExtension = some text) :
    Carries m "binding_extension" text
  | solc {text : String} (h : m.solc = some (Path.ofString text)) : Carries m "solc" text

/-- Everything in the value is carried by the dialect: every key of a table, and every element of an array,
whose elements stand for the keys in order. -/
inductive HeedsDialect (d : Dialect) : Toml → Prop where
  | table {entries : Toml.Entries}
    (h : ∀ e ∈ entries, e.1 ∈ dialectKeys ∧ ∃ text, e.2 = .string text ∧ CarriesDialect d e.1 text) :
    HeedsDialect d (.table entries)
  | array {elements : List Toml}
    (h : elements <+: [.string d.runtimeModule, .string d.runnerParameter]) :
    HeedsDialect d (.array elements)

/-- **No key of the entries is ignored**: every one is known, and the manifest carries its value. -/
structure Heeds (entries : Toml.Entries) (m : Manifest) : Prop where
  known : ∀ e ∈ entries, e.1 ∈ keys
  text : ∀ e ∈ entries, e.1 ≠ "dialect" → ∃ text, e.2 = .string text ∧ Carries m e.1 text
  dialect : ∀ v, ("dialect", v) ∈ entries → ∃ d, m.dialect = some d ∧ HeedsDialect d v

/-! ## What is dropped -/

/-- The entry has a key of a dialect. -/
def hasDialectKey (e : String × Toml) : Bool := dialectKeys.contains e.1

theorem hasDialectKey_iff {e : String × Toml} : hasDialectKey e = true ↔ e.1 ∈ dialectKeys :=
  List.contains_iff_mem

/-- What is left of a dialect without what is dropped. -/
def heeded : Toml → Toml
  | .table entries => .table (entries.filter hasDialectKey)
  | .array elements => .array (elements.take dialectKeys.length)
  | .dateTime => .table []
  | v => v

/-- What is left of an entry of a document. -/
def heededEntry (e : String × Toml) : String × Toml :=
  if e.1 = "dialect" then (e.1, heeded e.2) else e

@[simp] theorem heededEntry_fst (e : String × Toml) : (heededEntry e).1 = e.1 := by
  unfold heededEntry
  split <;> rfl

theorem heeded_heeded (v : Toml) : heeded (heeded v) = heeded v := by
  cases v <;> simp [heeded, List.take_take]

theorem heededEntry_heededEntry (e : String × Toml) : heededEntry (heededEntry e) = heededEntry e := by
  by_cases h : e.1 = "dialect"
  · simp [heededEntry, h, heeded_heeded]
  · simp [heededEntry, h]

theorem readDialectEntry_of_not_mem {key : String} (h : key ∉ dialectKeys) (d : Dialect) (v : Toml) :
    readDialectEntry d key v = .ok d := by
  simp only [dialectKeys, List.mem_cons, List.not_mem_nil, or_false, not_or] at h
  rw [readDialectEntry, if_neg h.1, if_neg h.2]

/-- Keys that a dialect does not have may as well be left out. -/
theorem foldlM_filter_readDialectEntry (entries : Toml.Entries) (d : Dialect) :
    (entries.filter hasDialectKey).foldlM (fun d e => readDialectEntry d e.1 e.2) d =
      entries.foldlM (fun d e => readDialectEntry d e.1 e.2) d := by
  induction entries generalizing d with
  | nil => rfl
  | cons e entries ih =>
    by_cases hkey : e.1 ∈ dialectKeys
    · rw [List.filter_cons_of_pos (hasDialectKey_iff.mpr hkey), List.foldlM_cons, List.foldlM_cons]
      exact bind_congr ih
    · rw [List.filter_cons_of_neg (fun h => hkey (hasDialectKey_iff.mp h)), List.foldlM_cons, ih,
        readDialectEntry_of_not_mem hkey]
      rfl

/-- **What is dropped from a dialect makes no difference.** -/
theorem readDialect_heeded (v : Toml) : readDialect (heeded v) = readDialect v := by
  cases v with
  | table entries => exact foldlM_filter_readDialectEntry entries Dialect.default
  | array elements =>
    rcases elements with _ | ⟨a, _ | ⟨b, rest⟩⟩ <;> rfl
  | dateTime => rfl
  | string | integer | real | boolean => rfl

theorem readEntry_dialect (m : Manifest) (v : Toml) :
    readEntry m "dialect" v = (readDialect v).map fun d => { m with dialect := some d } := by
  simp [readEntry]

theorem readEntry_heededEntry (m : Manifest) (e : String × Toml) :
    readEntry m (heededEntry e).1 (heededEntry e).2 = readEntry m e.1 e.2 := by
  by_cases h : e.1 = "dialect"
  · rw [heededEntry, if_pos h, h, readEntry_dialect, readEntry_dialect, readDialect_heeded]
  · rw [heededEntry, if_neg h]

theorem ofEntries_heeded (entries : Toml.Entries) :
    ofEntries (entries.map heededEntry) = ofEntries entries := by
  rw [ofEntries, ofEntries, List.foldlM_map]
  congr
  funext m e
  exact readEntry_heededEntry m e

/-! ## What is carried -/

/-- Where keys are distinct, a key has its own value only. -/
theorem valueOf?_of_mem {entries : Toml.Entries} (hnodup : (entries.map Prod.fst).Nodup)
    {e : String × Toml} (he : e ∈ entries) : valueOf? entries e.1 = some e.2 := by
  obtain ⟨before, after, rfl⟩ := List.append_of_mem he
  have hafter : ∀ x ∈ after.reverse, e.1 ≠ x.1 := by
    intro x hx hkey
    rw [List.map_append, List.map_cons, List.nodup_append, List.nodup_cons] at hnodup
    exact hnodup.2.1.1 (hkey ▸ List.mem_map_of_mem (List.mem_reverse.mp hx))
  rw [valueOf?, List.lookup_eq_some_iff]
  exact ⟨after.reverse, before.reverse, by simp, fun x hx => bne_iff_ne.mpr (hafter x hx)⟩

theorem textAt?_of_mem {entries : Toml.Entries} (hnodup : (entries.map Prod.fst).Nodup)
    {e : String × Toml} (he : e ∈ entries) {text : String} (htext : e.2 = .string text) :
    textAt? entries e.1 = some text := by
  rw [textAt?, valueOf?_of_mem hnodup he, htext]
  rfl

theorem exists_of_isSome_text? {v : Toml} (h : (text? v).isSome = true) : ∃ text, v = .string text := by
  cases v with
  | string text => exact ⟨text, rfl⟩
  | _ => cases h

theorem carriesDialect_said {entries : Toml.Entries} {key text : String} (hkey : key ∈ dialectKeys)
    (h : textAt? entries key = some text) : CarriesDialect (saidDialect entries) key text := by
  simp only [dialectKeys, List.mem_cons, List.not_mem_nil, or_false] at hkey
  rcases hkey with rfl | rfl
  · have htext : (saidDialect entries).runtimeModule = text := by rw [saidDialect, h, Option.getD_some]
    exact htext ▸ .runtimeModule
  · have htext : (saidDialect entries).runnerParameter = text := by rw [saidDialect, h, Option.getD_some]
    exact htext ▸ .runnerParameter

theorem carries_said {entries : Toml.Entries} {key text : String} (hkey : key ∈ keys)
    (hne : key ≠ "dialect") (h : textAt? entries key = some text) : Carries (said entries) key text := by
  simp only [keys, List.mem_cons, List.not_mem_nil, or_false] at hkey
  rcases hkey with rfl | rfl | rfl | rfl | rfl
  · exact .artifacts (by rw [said, h, Option.map_some])
  · exact .artifactExtension h
  · exact .bindingExtension h
  · exact .solc (by rw [said, h, Option.map_some])
  · exact absurd rfl hne

/-- A dialect in which nothing is dropped carries everything. -/
theorem heedsDialect_said {v : Toml} (hkeyed : v.IsKeyed) (hdialect : isDialect v = true)
    (hheeded : heeded v = v) :
    HeedsDialect (saidDialect ((dialectEntries? v).getD [])) v := by
  cases hkeyed with
  | table hnodup _ =>
    rename_i entries
    refine .table fun e he => ?_
    have hkey : e.1 ∈ dialectKeys := by
      rw [heeded, Toml.table.injEq, List.filter_eq_self] at hheeded
      exact hasDialectKey_iff.mp (hheeded e he)
    have hfit : isDialectEntry e = true := List.all_eq_true.mp hdialect e he
    rw [isDialectEntry, List.contains_iff_mem.mpr hkey, Bool.not_true, Bool.false_or] at hfit
    obtain ⟨text, htext⟩ := exists_of_isSome_text? hfit
    exact ⟨hkey, text, htext, carriesDialect_said hkey (textAt?_of_mem hnodup he htext)⟩
  | array helements =>
    rename_i elements
    clear helements
    rcases elements with _ | ⟨a, _ | ⟨b, _ | ⟨c, rest⟩⟩⟩
    · exact .array List.nil_prefix
    · have ha := List.all_eq_true.mp hdialect ("runtime_module", a) (by simp [dialectKeys])
      obtain ⟨text, rfl⟩ := exists_of_isSome_text? ha
      exact .array ⟨[_], rfl⟩
    · have ha := List.all_eq_true.mp hdialect ("runtime_module", a) (by simp [dialectKeys])
      have hb := List.all_eq_true.mp hdialect ("runner_param", b) (by simp [dialectKeys])
      obtain ⟨text, rfl⟩ := exists_of_isSome_text? ha
      obtain ⟨text', rfl⟩ := exists_of_isSome_text? hb
      exact .array (List.prefix_refl _)
    · simp [heeded, dialectKeys] at hheeded
  | dateTime => cases hheeded
  | string | integer | real | boolean => cases hdialect

theorem isSetting_of_mem {entries : Toml.Entries} (h : isManifest entries = true) {e : String × Toml}
    (he : e ∈ entries) : isSetting e = true := List.all_eq_true.mp h e he

theorem mem_keys_of_isSetting {e : String × Toml} (h : isSetting e = true) : e.1 ∈ keys := by
  unfold isSetting at h
  split at h
  · rename_i hkey
    rw [hkey]
    decide
  · exact List.contains_iff_mem.mp (Bool.and_eq_true_iff.mp h).1

/-- **A manifest carries every key of a document in which nothing is dropped.** -/
theorem heeds_said {entries : Toml.Entries} (hkeyed : (Toml.table entries).IsKeyed)
    (hmanifest : isManifest entries = true) (hheeded : ∀ e ∈ entries, heededEntry e = e) :
    Heeds entries (said entries) := by
  obtain ⟨hnodup, hvalues⟩ := Toml.isKeyed_table_iff.mp hkeyed
  refine ⟨fun e he => mem_keys_of_isSetting (isSetting_of_mem hmanifest he), fun e he hne => ?_,
    fun v hv => ?_⟩
  · have hsetting := isSetting_of_mem hmanifest he
    rw [isSetting, if_neg hne, Bool.and_eq_true] at hsetting
    obtain ⟨text, htext⟩ := exists_of_isSome_text? hsetting.2
    exact ⟨text, htext, carries_said (List.contains_iff_mem.mp hsetting.1) hne
      (textAt?_of_mem hnodup he htext)⟩
  · have hdialect : isDialect v = true := isSetting_of_mem hmanifest hv
    have hleft : heeded v = v := congrArg Prod.snd (hheeded _ hv)
    refine ⟨_, ?_, heedsDialect_said (hvalues _ hv) hdialect hleft⟩
    rw [said, valueOf?_of_mem hnodup hv, Option.map_some]

/-- Of what a dialect carries nothing is dropped. -/
theorem HeedsDialect.heeded_eq {d : Dialect} {v : Toml} (h : HeedsDialect d v) : heeded v = v := by
  cases h with
  | table h =>
    rw [heeded, List.filter_eq_self.mpr fun e he => hasDialectKey_iff.mpr (h e he).1]
  | array h =>
    have hlength : _ ≤ dialectKeys.length := h.length_le
    rw [heeded, List.take_of_length_le hlength]

theorem Heeds.heededEntry_eq {entries : Toml.Entries} {m : Manifest} (h : Heeds entries m)
    {e : String × Toml} (he : e ∈ entries) : heededEntry e = e := by
  unfold heededEntry
  split
  · rename_i hkey
    obtain ⟨d, _, hd⟩ := h.dialect e.2 (hkey ▸ he)
    rw [hd.heeded_eq]
  · rfl

/-! ## Loading -/

theorem pathExists_of_textAt {files : FileSystem} {p : Path} {text : String}
    (h : files.textAt p = .ok text) : files.pathExists p = true := by
  unfold FileSystem.textAt FileSystem.contentsAt at h
  unfold FileSystem.pathExists
  cases hentry : files.lookup true p with
  | error e => simp [hentry] at h
  | ok entry => rfl

/-- What is loaded where the text of the manifest is a document. -/
theorem load_of_parse {files : FileSystem} {source : Path} {text : String} {entries : Toml.Entries}
    (htext : files.textAt (pathIn source) = .ok text) (hparse : Toml.parse text = some entries) :
    load files source =
      ((ofEntries entries).map some).mapError (ManifestError.shape (pathIn source)) := by
  unfold load
  simp only [pathExists_of_textAt htext, Bool.not_true, Bool.false_eq_true, if_false, htext, hparse]
  cases ofEntries entries <;> rfl

/-- A key that a manifest does not have is refused. -/
theorem exists_error_of_not_mem_keys {entries : Toml.Entries} (h : ∃ e ∈ entries, e.1 ∉ keys) :
    ∃ error, ofEntries entries = .error error := by
  obtain ⟨e, he, hkey⟩ := h
  cases hof : ofEntries entries with
  | error error => exact ⟨error, rfl⟩
  | ok m =>
    have hmanifest := ((ofEntries_eq_ok_iff entries m).mp hof).1
    exact absurd (mem_keys_of_isSetting (isSetting_of_mem hmanifest he)) hkey

theorem isKeyed_heeded {v : Toml} (h : v.IsKeyed) : (heeded v).IsKeyed := by
  cases h with
  | table hnodup hvalues =>
    exact .table (hnodup.sublist (List.filter_sublist.map _))
      fun e he => hvalues e (List.mem_of_mem_filter he)
  | array helements => exact .array fun v hv => helements v (List.mem_of_mem_take hv)
  | dateTime => exact .table List.nodup_nil (by simp)
  | string s => exact .string s
  | integer n => exact .integer n
  | real text => exact .real text
  | boolean b => exact .boolean b

/-- What is left of a document has distinct keys. -/
theorem isKeyed_map_heededEntry {entries : Toml.Entries} (h : (Toml.table entries).IsKeyed) :
    (Toml.table (entries.map heededEntry)).IsKeyed := by
  obtain ⟨hnodup, hvalues⟩ := Toml.isKeyed_table_iff.mp h
  refine .table ?_ fun e he => ?_
  · have hkeys : (entries.map heededEntry).map Prod.fst = entries.map Prod.fst := by
      rw [List.map_map]
      exact List.map_congr_left fun e _ => heededEntry_fst e
    exact hkeys ▸ hnodup
  · obtain ⟨old, hold, rfl⟩ := List.mem_map.mp he
    unfold heededEntry
    split
    · exact isKeyed_heeded (hvalues old hold)
    · exact hvalues old hold

/--
**Which keys of a manifest are heeded**, for every document: what is loaded carries all that is left
without what the `dialect` table drops, and all of the document exactly if there is nothing to drop there.
A key that a manifest does not have is refused at the top level, and what is dropped makes no difference.
-/
theorem load_heeds {files : FileSystem} {source : Path} {text : String} {entries : Toml.Entries}
    (htext : files.textAt (pathIn source) = .ok text) (hparse : Toml.parse text = some entries) :
    (∀ loaded, load files source = .ok loaded → ∃ m, loaded = some m ∧
      Heeds (entries.map heededEntry) m ∧
      (Heeds entries m ↔ ∀ e ∈ entries, heededEntry e = e)) ∧
    ((∃ e ∈ entries, e.1 ∉ keys) →
      ∃ error, load files source = .error (.shape (pathIn source) error)) ∧
    ∀ {files' : FileSystem} {text' : String}, files'.textAt (pathIn source) = .ok text' →
      Toml.parse text' = some (entries.map heededEntry) → load files' source = load files source := by
  refine ⟨fun loaded hload => ?_, fun hunknown => ?_, fun htext' hparse' => ?_⟩
  · rw [load_of_parse htext hparse] at hload
    cases hof : ofEntries entries with
    | error error =>
      rw [hof] at hload
      cases hload
    | ok m =>
      rw [hof] at hload
      cases hload
      obtain ⟨hmanifest, rfl⟩ := (ofEntries_eq_ok_iff entries m).mp hof
      have hkeyed := Toml.parse_isKeyed hparse
      refine ⟨_, rfl, ?_, fun h e he => h.heededEntry_eq he, heeds_said hkeyed hmanifest⟩
      rw [← ofEntries_heeded] at hof
      obtain ⟨hleft, hsaid⟩ := (ofEntries_eq_ok_iff _ _).mp hof
      rw [hsaid]
      refine heeds_said (isKeyed_map_heededEntry hkeyed) hleft fun e he => ?_
      obtain ⟨old, _, rfl⟩ := List.mem_map.mp he
      exact heededEntry_heededEntry old
  · obtain ⟨error, herror⟩ := exists_error_of_not_mem_keys hunknown
    rw [load_of_parse htext hparse, herror]
    exact ⟨error, rfl⟩
  · rw [load_of_parse htext' hparse', load_of_parse htext hparse, ofEntries_heeded]

/-- A source directory with a manifest. -/
def withText (text : String) : FileSystem :=
  ⟨[([encode "src"], .directory), ([encode "src", encode "Typify.toml"], .file (encode text))], []⟩

theorem textAt_withText (text : String) :
    (withText text).textAt (pathIn (Path.ofString "src")) = .ok text := by
  have hcontents : (withText text).contentsAt (pathIn (Path.ofString "src")) = .ok (encode text) := by
    cbv
  rw [FileSystem.textAt, hcontents]
  simp only [decode?_encode]

/-- A manifest whose dialect has a key that it does not know beside one that it knows. -/
def partlyIgnored : String := "solc = \"s\"\n[dialect]\nrunner = \"r\"\nrunner_param = \"p\"\n"

def partlyIgnoredEntries : Toml.Entries :=
  [("solc", .string "s"), ("dialect", .table [("runner", .string "r"), ("runner_param", .string "p")])]

/-- The sample: the unknown key is dropped and the others are carried. -/
theorem load_heeds_partlyIgnored :
    (∀ loaded, load (withText partlyIgnored) (Path.ofString "src") = .ok loaded → ∃ m, loaded = some m ∧
      Heeds (partlyIgnoredEntries.map heededEntry) m ∧
      (Heeds partlyIgnoredEntries m ↔ ∀ e ∈ partlyIgnoredEntries, heededEntry e = e)) ∧
    ((∃ e ∈ partlyIgnoredEntries, e.1 ∉ keys) → ∃ error,
      load (withText partlyIgnored) (Path.ofString "src") =
        .error (.shape (pathIn (Path.ofString "src")) error)) ∧
    ∀ {files' : FileSystem} {text' : String},
      files'.textAt (pathIn (Path.ofString "src")) = .ok text' →
      Toml.parse text' = some (partlyIgnoredEntries.map heededEntry) →
      load files' (Path.ofString "src") = load (withText partlyIgnored) (Path.ofString "src") :=
  load_heeds (textAt_withText partlyIgnored) (by cbv)

/-- A manifest with a misspelt key in its dialect. -/
def misspelt : String := "[dialect]\nrunner_name = \"signer\"\n"

def misspeltEntries : Toml.Entries := [("dialect", .table [("runner_name", .string "signer")])]

/-- **A key of a dialect can be lost**: the manifest with the misspelt key is loaded, without its value. -/
theorem not_heeds_misspelt :
    Toml.parse misspelt = some misspeltEntries ∧
    load (withText misspelt) (Path.ofString "src") = .ok (some { dialect := some Dialect.default }) ∧
    "runner_name" ∉ dialectKeys ∧ ¬ Heeds misspeltEntries { dialect := some Dialect.default } := by
  have hparse : Toml.parse misspelt = some misspeltEntries := by cbv
  refine ⟨hparse, ?_, by decide, fun h => ?_⟩
  · rw [load_of_parse (textAt_withText misspelt) hparse]
    rfl
  · have hleft := h.heededEntry_eq (List.mem_singleton.mpr rfl)
    simp [heededEntry, heeded, hasDialectKey, dialectKeys] at hleft

end ContractBindings.Manifest
