import ContractBindings.CommandLine.Run
import ContractBindings.Proofs.CommandLine.Arguments
import ContractBindings.Proofs.CommandLine.Settings
import ContractBindings.Proofs.Generate.Beside

/-!
# What a command line leads to

The settings of a run come from three places: the options, the manifest of the source directory, and the
defaults.  Every setting is looked for in this order, each on its own.

* `IsAsked o entries c compiler`: the configuration and the compiler are those that the options and the
  entries of the manifest ask for.  The directory of the artifacts is the one of the option as it is
  spelled; that of the manifest and the default one stand below the source directory.  Either key of the
  dialect may come from another place than the other one.
* `IsOutcome o s r`: without a source directory, or with a manifest that cannot be used, the session stays
  as it was and the code is 1.  Otherwise the run is `generate` on what is asked for, and the code is 0
  exactly if it succeeds with no artifacts or at least one binding, else 1.  With `--skip-compile` no
  program is called.
* `run_outcome`: so it is for every command line that asks for a run, and every session, and the options
  are those of the only list of settings that the command line spells.

Nothing is assumed of the files: the source directory may be given by any path, through links too.  What
`generate` does is not said here, and command lines that are refused are not looked at.
-/

set_option autoImplicit false

namespace ContractBindings

open Text Binding

/-! ## Programs that are called -/

namespace Generate

theorem bind_calls (c : Config) (s : Session) (artifact : Path) :
    (bind c s artifact).1.calls = s.calls := by
  unfold bind
  dsimp only
  split
  · rfl
  · split
    · rfl
    · rename_i s' hwrite
      unfold Session.write at hwrite
      split at hwrite
      · cases hwrite
        rfl
      · cases hwrite

theorem bindAll_calls (c : Config) (s : Session) (artifacts : List Path) :
    (bindAll c s artifacts).1.calls = s.calls := by
  induction artifacts generalizing s with
  | nil => rfl
  | cons artifact rest ih =>
    obtain ⟨s', _, hcalls, hrest⟩ := bindAll_cons c s artifact rest
    rw [hrest, ih s', hcalls, bind_calls]

end Generate

/-- **No program is called where the artifacts exist already.** -/
theorem generate_precompiled_calls (c : Config) (s : Session) :
    (generate c .precompiled s).1.calls = s.calls := by
  unfold generate
  dsimp only
  split
  · rename_i s' e hcompile
    rw [← show _ = s' from congrArg Prod.fst hcompile]
    rfl
  · rename_i s' hcompile
    have hs' : s.tell (.compiling c.source) = s' := congrArg Prod.fst hcompile
    rw [← hs']
    split
    · rfl
    · rename_i artifacts _
      have hall := Generate.bindAll_calls c
        ((s.tell (.compiling c.source)).tell (.compiled c.artifacts)) artifacts
      unfold Generate.bindFound
      dsimp only
      split <;> exact hall

namespace CommandLine

open Manifest

/-! ## Configurations -/

/--
The configuration and the compiler are those that options and the entries of a manifest ask for: an
option wins over the manifest, and the manifest over the default.
-/
structure IsAsked (o : Options) (entries : Toml.Entries) (c : Config) (compiler : Compiler) :
    Prop where
  source : c.source = o.source
  artifacts : c.artifacts = o.artifacts.getD
    (o.source.join (Path.ofString ((textAt? entries "artifacts").getD "artifacts")))
  artifactExtension : c.artifactExtension = (textAt? entries "artifact_extension").getD "json"
  bindingExtension : c.bindingExtension = (textAt? entries "binding_extension").getD "ts"
  runtimeModule : c.dialect.runtimeModule =
    (o.runtimeModule.or (dialectTextAt? entries "runtime_module")).getD "ethers"
  runnerParameter : c.dialect.runnerParameter =
    (o.runnerParameter.or (dialectTextAt? entries "runner_param")).getD "runner"
  compiler : compiler =
    if o.skipCompile then .precompiled
    else .solc ((o.solc.or ((textAt? entries "solc").map Path.ofString)).getD (Path.ofString "solc"))

/-- Without a manifest the configuration is that of a manifest that says nothing. -/
theorem configOf_getD (o : Options) (manifest : Option Manifest) :
    configOf o (some (manifest.getD {})) = configOf o manifest := by
  cases manifest <;> rfl

theorem compilerOf_getD (o : Options) (manifest : Option Manifest) :
    compilerOf o (some (manifest.getD {})) = compilerOf o manifest := by
  cases manifest <;> rfl

/-- The dialect of a manifest, key by key. -/
theorem getD_dialect_said (entries : Toml.Entries) :
    (said entries).dialect.getD Dialect.default =
      { runtimeModule := (dialectTextAt? entries "runtime_module").getD "ethers"
        runnerParameter := (dialectTextAt? entries "runner_param").getD "runner" } := by
  unfold said dialectTextAt?
  cases valueOf? entries "dialect" with
  | none => rfl
  | some v =>
    cases hv : dialectEntries? v with
    | none => simp [hv, saidDialect, textAt?, valueOf?, Dialect.default]
    | some dialect => simp [hv, saidDialect, Dialect.default]

/-- **What is run is what is asked for.** -/
theorem isAsked_configOf {o : Options} {entries : Toml.Entries} {manifest : Option Manifest}
    (h : manifest.getD {} = said entries) :
    IsAsked o entries (configOf o manifest) (compilerOf o manifest) := by
  rw [← configOf_getD, ← compilerOf_getD, h]
  have hdialect : (configOf o (some (said entries))).dialect =
      { runtimeModule := o.runtimeModule.getD ((said entries).dialect.getD .default).runtimeModule
        runnerParameter :=
          o.runnerParameter.getD ((said entries).dialect.getD .default).runnerParameter } := rfl
  rw [getD_dialect_said] at hdialect
  refine ⟨rfl, ?_, rfl, rfl, ?_, ?_, ?_⟩
  · unfold configOf Config.withManifest said
    cases textAt? entries "artifacts" <;> rfl
  · rw [hdialect]
    cases o.runtimeModule <;> rfl
  · rw [hdialect]
    cases o.runnerParameter <;> rfl
  · unfold compilerOf
    cases o.solc <;> rfl

/-! ## Outcomes -/

/-- The call ends well, with nothing to do or at least one binding. -/
def Succeeds (result : Except GenerateError Report) : Prop :=
  ∃ report, result = .ok report ∧ (report.artifacts = 0 ∨ report.generated ≠ [])

/-- What a run on options leaves behind, and the code it exits with. -/
structure IsOutcome (o : Options) (s : Session) (r : Session × Ending) : Prop where
  /-- Without a source directory or without a manifest that can be used nothing is done. -/
  refused : s.files.isDirectory o.source = false ∨ settings? s.files o.source = none →
    r.1 = s ∧ r.2.exitCode = 1
  /-- Otherwise the bindings are generated as they are asked for. -/
  generated : ∀ entries, s.files.isDirectory o.source = true →
    settings? s.files o.source = some entries →
    ∃ c compiler told, IsAsked o entries c compiler ∧
      r.1 = (generate c compiler { s with notices := s.notices ++ told }).1 ∧
      (Succeeds (generate c compiler { s with notices := s.notices ++ told }).2 →
        r.2.exitCode = 0) ∧
      (¬ Succeeds (generate c compiler { s with notices := s.notices ++ told }).2 →
        r.2.exitCode = 1)
  /-- No program is called where compiling is skipped. -/
  skipped : o.skipCompile = true → r.1.calls = s.calls

theorem succeeds_ok_iff {report : Report} : Succeeds (.ok report) ↔ report.isSuccess = true := by
  unfold Succeeds Report.isSuccess
  simp

/-- The session and the ending of a run whose arguments were accepted. -/
theorem run_eq {arguments : List String} {o : Options} (h : parse arguments = .ok (.run o))
    (s : Session) : run arguments s =
      ((execute o s).1, .finished o.verbose (match (execute o s).2 with
        | .ok _ => none
        | .error e => some e)) := by
  unfold run
  rw [h]
  rcases hexec : execute o s with ⟨s', result⟩
  cases result <;> simp [hexec]

/-- Without a source directory or a manifest that can be used, nothing is done. -/
theorem execute_refused {o : Options} {s : Session}
    (h : s.files.isDirectory o.source = false ∨ settings? s.files o.source = none) :
    ∃ e, execute o s = (s, .error e) := by
  unfold execute
  cases hdirectory : s.files.isDirectory o.source with
  | false => exact ⟨_, rfl⟩
  | true =>
    have hsettings : settings? s.files o.source = none := by simpa [hdirectory] using h
    cases hload : Manifest.load s.files o.source with
    | error e => exact ⟨_, rfl⟩
    | ok manifest =>
      obtain ⟨entries, hsome, -⟩ := (load_eq_ok_iff _ _ _).mp hload
      rw [hsettings] at hsome
      cases hsome

/-- Otherwise the bindings are generated, and it is a failure if there are none for the artifacts. -/
theorem execute_generate {o : Options} {s : Session} {entries : Toml.Entries}
    (hdirectory : s.files.isDirectory o.source = true)
    (hsettings : settings? s.files o.source = some entries) :
    ∃ manifest told, manifest.getD {} = said entries ∧
      (execute o s).1 = (generate (configOf o manifest) (compilerOf o manifest)
        { s with notices := s.notices ++ told }).1 ∧
      ((∃ report, (execute o s).2 = .ok report) ↔
        Succeeds (generate (configOf o manifest) (compilerOf o manifest)
          { s with notices := s.notices ++ told }).2) := by
  obtain ⟨manifest, hload, hsaid⟩ := exists_load_of_settings? hsettings
  refine ⟨manifest, manifestNotices o.source manifest, hsaid, ?_⟩
  have htold : ({ s with notices := s.notices ++ manifestNotices o.source manifest } : Session) =
      s.tellAll (manifestNotices o.source manifest) := rfl
  rw [htold]
  unfold execute
  simp only [hdirectory, hload, Bool.not_true, Bool.false_eq_true, if_false]
  rcases generate (configOf o manifest) (compilerOf o manifest)
    (s.tellAll (manifestNotices o.source manifest)) with ⟨s', e | report⟩
  · exact ⟨rfl, by simp [Succeeds]⟩
  · rw [succeeds_ok_iff]
    cases hsuccess : report.isSuccess with
    | true => simp [hsuccess]
    | false => simp [hsuccess]

/--
**A run does what its arguments, its manifest and the defaults ask for, and its code says how it
ended.**
-/
theorem run_outcome {arguments : List String} {o : Options} (h : parse arguments = .ok (.run o))
    (s : Session) :
    (∃ given, Spells arguments given ∧ IsOptions given o ∧
        ∀ other, Spells arguments other → other = given) ∧
      IsOutcome o s (run arguments s) := by
  refine ⟨exists_spells_of_parse h, ?_⟩
  rw [run_eq h]
  refine ⟨?_, ?_, ?_⟩
  · intro hrefused
    obtain ⟨e, he⟩ := execute_refused hrefused
    rw [he]
    exact ⟨rfl, rfl⟩
  · intro entries hdirectory hsettings
    obtain ⟨manifest, told, hsaid, hsession, hsuccess⟩ := execute_generate hdirectory hsettings
    refine ⟨_, _, told, isAsked_configOf hsaid, hsession, ?_, ?_⟩
    · intro h'
      obtain ⟨report, hreport⟩ := hsuccess.mpr h'
      rw [hreport]
      rfl
    · intro h'
      cases hresult : (execute o s).2 with
      | ok report => exact absurd (hsuccess.mp ⟨report, hresult⟩) h'
      | error e => rfl
  · intro hskip
    by_cases hrefused : s.files.isDirectory o.source = false ∨ settings? s.files o.source = none
    · obtain ⟨e, he⟩ := execute_refused hrefused
      rw [he]
    · push Not at hrefused
      obtain ⟨entries, hsettings⟩ := Option.ne_none_iff_exists'.mp hrefused.2
      have hdirectory : s.files.isDirectory o.source = true := by simpa using hrefused.1
      obtain ⟨manifest, told, hsaid, hsession, -⟩ := execute_generate hdirectory hsettings
      have hcompiler : compilerOf o manifest = .precompiled := by
        unfold compilerOf
        rw [if_pos hskip]
      rw [hcompiler] at hsession
      show (execute o s).1.calls = s.calls
      rw [hsession, generate_precompiled_calls]

/-! ## A sample -/

/-- A directory `project` with a manifest and an empty directory for artifacts. -/
def layeredSession : Session where
  files :=
    ⟨[([encode "w"], .directory),
      ([encode "w", encode "project"], .directory),
      ([encode "w", encode "project", encode "Typify.toml"], .file (encode "artifacts = 'b'")),
      ([encode "w", encode "project", encode "b"], .directory)], [encode "w"]⟩
  searchPath := []

/-- A run on existing artifacts, with one key of the dialect. -/
def layeredArguments : List String := ["--skip-compile", "project", "--runner-param=signer"]

def layeredOptions : Options where
  source := Path.ofString "project"
  artifacts := none
  skipCompile := true
  solc := none
  runtimeModule := none
  runnerParameter := some "signer"
  verbose := false

/-- The directory of the artifacts comes from the manifest, one key of the dialect from an option. -/
theorem run_outcome_layered :
    parse layeredArguments = .ok (.run layeredOptions) ∧
      layeredSession.files.isDirectory layeredOptions.source = true ∧
      settings? layeredSession.files layeredOptions.source = some [("artifacts", .string "b")] ∧
      (∃ given, Spells layeredArguments given ∧ IsOptions given layeredOptions ∧
        ∀ other, Spells layeredArguments other → other = given) ∧
      IsOutcome layeredOptions layeredSession (run layeredArguments layeredSession) := by
  have hparse : parse layeredArguments = .ok (.run layeredOptions) := by cbv
  have hdirectory : layeredSession.files.isDirectory layeredOptions.source = true := by cbv
  have hsettings : settings? layeredSession.files layeredOptions.source =
      some [("artifacts", .string "b")] := by cbv
  exact ⟨hparse, hdirectory, hsettings, run_outcome hparse layeredSession⟩

end CommandLine

end ContractBindings
