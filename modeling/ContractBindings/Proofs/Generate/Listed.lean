import ContractBindings.Proofs.Compiler.Contained
import ContractBindings.Proofs.Generate.Shared
import ContractBindings.Proofs.Glob.Linked

/-!
# Artifacts that a run finds again

A compilation writes artifacts whose names end in `.json`; the run then looks for files with the extension of
its configuration, which may be another one or hold wildcards.

* `exists_written`: a run that ends well and used an output has written the artifact of every contract in it;
* `isListed_iff`: such an artifact is found exactly if the pattern of the extension matches its name;
* `matchesName_artifactName_iff`: without wildcards, if its name ends in the extension;
* `generate_listed`: what a run that compiles has an entry for;
* `not_listsContracts_sample`: with another extension, or a path like `./`, there may be no entry.
-/

set_option autoImplicit false

namespace ContractBindings.Generate

open Text ContractBindings.Path FileSystem Glob Compiler

variable {c : Config} {s : Session} {program : Path} {fs : FileSystem} {report : Report} {a : Path}
  {found : List Path} {turns : List Turn} {contracts : List CompiledContract} {files : Glob.Component}
  {stdout text name : String}

/-! ## What was written -/

/-- The files of a run behind its compilation. -/
def compiledFiles (c : Config) (program : Path) (s : Session) : FileSystem :=
  ((Compiler.solc program).compile c.source c.artifacts (s.tell (.compiling c.source))).1.files

/-- A run that ends well has compiled, and could read the pattern of its artifacts. -/
theorem exists_compiled_of_ok (hrun : (generate c (.solc program) s).2 = .ok report) :
    ∃ s₁ found,
      (Compiler.solc program).compile c.source c.artifacts (s.tell (.compiling c.source)) =
        (s₁, .ok ()) ∧
      findArtifacts s₁.files c.artifacts c.artifactExtension = .ok found := by
  unfold generate at hrun
  cases hcompile : (Compiler.solc program).compile c.source c.artifacts (s.tell (.compiling c.source)) with
  | mk s₁ result =>
    simp only [hcompile] at hrun
    cases result with
    | error e => cases hrun
    | ok _ =>
      cases hfound : findArtifacts s₁.files c.artifacts c.artifactExtension with
      | error e =>
        simp only [Session.tell, hfound] at hrun
        cases hrun
      | ok found => exact ⟨s₁, found, rfl, hfound⟩

/-- **A compilation that ends well has written every contract** of the output that it used. -/
theorem exists_written (hfs : s.files.IsNested)
    (hcompile : ((Compiler.solc program).compile c.source c.artifacts (s.tell (.compiling c.source))).2 =
      .ok ())
    (hused : usedOutput? program c.source c.artifacts s = some stdout) :
    ∃ contracts, contractsOf stdout = .ok contracts ∧
      WrittenArtifacts c.artifacts (s.files.ensureDirectory c.artifacts).1 (compiledFiles c program s)
        contracts := by
  have htold : usedOutput? program c.source c.artifacts (s.tell (.compiling c.source)) = some stdout :=
    hused
  have hfiles : (s.tell (.compiling c.source)).files = s.files := rfl
  unfold compiledFiles
  rw [compile] at hcompile ⊢
  rcases compileWith_cases program c.source c.artifacts (s.tell (.compiling c.source)) with
    ⟨hnone, _⟩ | ⟨stdout', s₁, hsome, hs₁, hwrite⟩
  · rw [htold] at hnone
    cases hnone
  · rw [htold] at hsome
    cases hsome
    rw [hwrite] at hcompile ⊢
    rw [hfiles] at hs₁
    rcases writeOutput_cases (hs₁ ▸ hfs) c.artifacts stdout with
      ⟨_, contracts, hread, hwritten⟩ | ⟨e, _, herror, _, _⟩
    · rw [hs₁] at hwritten
      exact ⟨contracts, hread, hwritten⟩
    · rw [hcompile] at herror
      cases herror

/-! ## What is found -/

/-- The artifact of a contract is found, under its own name. -/
def IsListed (c : Config) (fs : FileSystem) (found : List Path) (name : String) : Prop :=
  ∃ a ∈ found, a.fileName? = some (artifactName name) ∧
    ∃ l, fs.Denotes a l ∧ fs.Denotes (artifactPath c.artifacts name) l

/-- A file that is looked up where the path of its directory leads has an entry there. -/
theorem entryAt?_of_arrives {k k' : Nat} {d l : Location} {n : Name} (hl : fs.entryAt? l ≠ none)
    (h : fs.Arrives k d [.down n] k' l) : fs.entryAt? (d ++ [n]) ≠ none := by
  rcases h.eq_or_link with rfl | ⟨t, ht⟩
  · exact hl
  · simp [ht]

/-- **An artifact is found exactly if the pattern of the extension matches its name.** -/
theorem isListed_iff (hfs : fs.IsNested) (hsteps : fs.HasStepNames)
    (hstart : ∀ n ∈ fs.workingDirectory, IsName n) (hname : IsContractName name)
    (hpath : c.artifacts = Path.ofString text) (hsight : text = "" ∨ ¬ IsBlind c.artifacts)
    (hext : '/' ∉ c.artifactExtension.toList)
    (hfile : ∃ l b, fs.Denotes (artifactPath c.artifacts name) l ∧ fs.entryAt? l = some (.file b))
    (hfound : findArtifacts fs c.artifacts c.artifactExtension = .ok found)
    (hfiles : tokenize ('*' :: '.' :: c.artifactExtension.toList) = .ok files) :
    IsListed c fs found name ↔ matchesName files (artifactName name) = true := by
  constructor
  · rintro ⟨a, ha, hfileName, _⟩
    obtain ⟨n, hn, hmatch⟩ := exists_of_mem_filesBelow hsteps hext hfound hfiles ha
    rw [hfileName] at hn
    cases hn
    exact hmatch
  · intro hmatch
    obtain ⟨l, b, hl, hentry⟩ := hfile
    have hn := isName_artifactName hname
    -- the directory in which the artifact was written, and the path by which the search gets there
    have hjoined : fs.Denotes (c.artifacts.join ⟨artifactName name⟩) l := hl
    obtain ⟨k, d, hopens, hd, k', harrives⟩ := exists_opens_of_join hn.no_separator hjoined
    rw [hpath] at hopens hsight
    rw [findArtifacts, hpath] at hfound
    obtain ⟨q, hleads, hlisted⟩ := below_mem_filesBelow hfs hstart hext hopens hd hsight hfound hfiles
    have hq : fs.Denotes (below q (artifactName name)) l := by
      rw [Denotes, locate_below_of_leads hfs hleads hn.no_separator hn.no_nul fun _ => hn.ne_nil]
      exact harrives.walk_eq
    rw [stepOfPiece_of_isName hn] at harrives
    refine ⟨_, hlisted _ (entryAt?_of_arrives (by simp [hentry]) harrives) hmatch ?_, ?_, l, hq, hl⟩
    · simp [isFile, lookup_of_denotes hq hentry]
    · obtain ⟨ps, hpieces⟩ := pieces_below hleads.ne_nil
      exact fileName?_of_pieces (hpieces _ hn.no_separator) hn

/-- The pattern of an extension without wildcards matches the artifacts whose names end in it. -/
theorem matchesName_artifactName_iff (hplain : IsPlainExtension c.artifactExtension)
    (hfiles : tokenize ('*' :: '.' :: c.artifactExtension.toList) = .ok files) :
    matchesName files (artifactName name) = true ↔ HasExtension c.artifactExtension (artifactName name) := by
  rw [tokenize_extension hplain] at hfiles
  cases hfiles
  exact matchesName_files hplain

/-! ## Entries of a report -/

/-- An artifact has an entry in a report: its binding, or the reason why it has none. -/
def HasEntry (c : Config) (report : Report) (a : Path) : Prop :=
  bindingPath c a ∈ report.generated ∨ ∃ e, ⟨a, e⟩ ∈ report.skipped

/-- Binding what is found makes a report that accounts for it. -/
theorem exists_account (hfs : s.files.IsNested)
    (hfound : findArtifacts s.files c.artifacts c.artifactExtension = .ok found) :
    ∃ turns, IsAccount c s.files found
      ⟨found.length, (bindAll c s found).2.1, (bindAll c s found).2.2⟩ turns := by
  obtain ⟨turns, hturns, hboth, hloaded, _⟩ :=
    bindAll_written (c := c) hfs fun _ => exists_denotes_of_mem hfound
  rw [hboth]
  exact ⟨turns, rfl, hturns, rfl, rfl, hloaded⟩

/-- **Whatever is found has an entry.** -/
theorem IsAccount.hasEntry (h : IsAccount c fs found report turns) (ha : a ∈ found) :
    HasEntry c report a := by
  rw [← h.inTurn] at ha
  obtain ⟨t, ht, rfl⟩ := List.mem_map.mp ha
  unfold HasEntry
  rw [h.generated, h.skipped]
  cases hresult : t.result with
  | ok doc =>
    have hbound : (⟨t.path, doc⟩ : Bound) ∈ boundOf turns :=
      List.mem_filterMap.mpr ⟨t, ht, by rw [hresult]; rfl⟩
    exact Or.inl (List.mem_map_of_mem hbound)
  | error e => exact Or.inr ⟨e, List.mem_filterMap.mpr ⟨t, ht, by rw [hresult]⟩⟩

/-- What a run is given that compiles in sight of its search. -/
structure IsSighted (c : Config) (s : Session) (text : String) : Prop where
  tree : s.files.IsTree
  path : c.artifacts = Path.ofString text
  sight : text = "" ∨ ¬ IsBlind c.artifacts
  no_slash : '/' ∉ c.artifactExtension.toList

/-- What a run has found behind a compilation, whose artifacts it reads and reports. -/
structure IsCatalogue (c : Config) (fs : FileSystem) (contracts : List CompiledContract)
    (report : Report) (found : List Path) (files : Glob.Component) : Prop where
  search : findArtifacts fs c.artifacts c.artifactExtension = .ok found
  pattern : tokenize ('*' :: '.' :: c.artifactExtension.toList) = .ok files
  account : ∃ turns, IsAccount c fs found report turns
  entry : ∀ a ∈ found, HasEntry c report a
  listed_iff : ∀ k ∈ contracts, IsContractName k.name →
    (IsListed c fs found k.name ↔ matchesName files (artifactName k.name) = true)
  /-- Without wildcards it is the end of the name that counts. -/
  listed_plain_iff : IsPlainExtension c.artifactExtension → ∀ k ∈ contracts, IsContractName k.name →
    (IsListed c fs found k.name ↔ HasExtension c.artifactExtension (artifactName k.name))
  listed : c.artifactExtension = Config.defaultArtifactExtension →
    ∀ k ∈ contracts, IsContractName k.name → IsListed c fs found k.name

/--
**What a run that compiles has an entry for**, in any tree and for any compiler: of the artifacts that the
compilation wrote, those whose names the pattern of the extension matches; with the usual extension, all.
-/
theorem generate_listed (h : IsSighted c s text) (hrun : (generate c (.solc program) s).2 = .ok report)
    (hused : usedOutput? program c.source c.artifacts s = some stdout) :
    ∃ contracts found files, contractsOf stdout = .ok contracts ∧
      IsCatalogue c (compiledFiles c program s) contracts report found files := by
  obtain ⟨s₁, found, hcompile, hfound⟩ := exists_compiled_of_ok hrun
  obtain ⟨contracts, hread, hwritten⟩ := exists_written h.tree.isNested (by rw [hcompile]) hused
  have hs₁ : compiledFiles c program s = s₁.files := by rw [compiledFiles, hcompile]
  rw [hs₁] at hwritten ⊢
  -- the names in the tree, and the place where relative paths start
  have hsteps := (h.tree.hasStepNames.ensureDirectory c.artifacts).written hwritten
  have hstart : ∀ n ∈ s₁.files.workingDirectory, IsName n := by
    rw [hwritten.onlyFiles.workingDirectory,
      (makesDirectories_ensureDirectory s.files c.artifacts).workingDirectory]
    exact fun n => h.tree.isName_of_mem (by simp [isDirectoryAt_iff.mp h.tree.start])
  obtain ⟨files, hfiles, _⟩ := filesBelow_eq_ok h.no_slash hfound
  have hiff : ∀ k ∈ contracts, IsContractName k.name →
      (IsListed c s₁.files found k.name ↔ matchesName files (artifactName k.name) = true) := by
    intro k hk hname
    obtain ⟨l, y, hl, _, hentry⟩ := hwritten.exists_last hk
    exact isListed_iff hwritten.isNested hsteps hstart hname h.path h.sight h.no_slash
      ⟨l, _, hl, hentry⟩ hfound hfiles
  obtain ⟨s', hs', _, hreport⟩ := generate_of_compiled (.solc program) hcompile hfound
  rw [hreport] at hrun
  cases hrun
  obtain ⟨turns, haccount⟩ := exists_account (c := c) (hs' ▸ hwritten.isNested) (hs' ▸ hfound)
  rw [hs'] at haccount
  refine ⟨contracts, found, files, hread, hfound, hfiles, ⟨turns, haccount⟩,
    fun _ => haccount.hasEntry, hiff, fun hplain k hk hname => ?_, fun hjson k hk hname => ?_⟩
  · rw [hiff k hk hname, matchesName_artifactName_iff hplain hfiles]
  · have hplain : IsPlainExtension c.artifactExtension := by
      rw [hjson]
      decide
    rw [hiff k hk hname, matchesName_artifactName_iff hplain hfiles, hjson]
    exact hasExtension_artifactName k.name

/-- A run reports what came of the artifacts that it has found behind a compilation. -/
theorem exists_report
    (hcompile : ((Compiler.solc program).compile c.source c.artifacts (s.tell (.compiling c.source))).2 =
      .ok ())
    (hfound : findArtifacts (compiledFiles c program s) c.artifacts c.artifactExtension = .ok found) :
    ∃ s', (generate c (.solc program) s).2 =
      .ok ⟨found.length, (bindAll c s' found).2.1, (bindAll c s' found).2.2⟩ := by
  obtain ⟨s', _, _, hreport⟩ := generate_of_compiled (.solc program) (Prod.ext rfl hcompile) hfound
  exact ⟨s', hreport⟩

/-! ## Samples -/

/-- A compilation into a directory, and a search there for an extension. -/
def listingConfig (artifacts : Path) (extension : String) : Config :=
  ⟨Path.current, artifacts, extension, "ts", .default⟩

def listingCompiler : Path := Path.ofString "./solc"

/-- What it prints: a contract `T`. -/
def listingOutput : String := "\x7b\"contracts\":\x7b\"T.sol:T\":\x7b\"abi\":[]\x7d\x7d\x7d"

def listingSession : Session := compilerSession listingOutput []

theorem contractsOf_listingOutput : contractsOf listingOutput = .ok [⟨"T", "T.sol", [], "0x"⟩] := by cbv

/-- How the compilation ends, and what the search behind it finds. -/
def compiledAndFound (c : Config) :
    Except CompileError Unit × Except PatternError (List Path) :=
  (((Compiler.solc listingCompiler).compile c.source c.artifacts
      (listingSession.tell (.compiling c.source))).2,
    findArtifacts (compiledFiles c listingCompiler listingSession) c.artifacts c.artifactExtension)

def outDirectory : Path := Path.ofString "out"

theorem isSighted_listing : IsSighted (listingConfig outDirectory "json") listingSession "out" := by
  refine ⟨by decide +kernel, rfl, Or.inr ?_, by decide⟩
  rintro ⟨_, h⟩
  exact absurd h (by decide +kernel)

/-- The run over the sample with the usual extension. -/
theorem generate_listed_sample :
    ∃ report,
      (generate (listingConfig outDirectory "json") (.solc listingCompiler) listingSession).2 =
        .ok report ∧
      ∃ contracts found files, contractsOf listingOutput = .ok contracts ∧
        IsCatalogue (listingConfig outDirectory "json")
          (compiledFiles (listingConfig outDirectory "json") listingCompiler listingSession) contracts
          report found files := by
  have hrun : compiledAndFound (listingConfig outDirectory "json") =
      (.ok (), .ok [Path.ofString "out/T.json"]) := by cbv
  obtain ⟨hcompile, hfound⟩ := Prod.mk.inj hrun
  obtain ⟨_, hreport⟩ := exists_report hcompile hfound
  exact ⟨_, hreport, generate_listed isSighted_listing hreport (by cbv)⟩

/-- A run that compiles has an entry for the artifact of every contract. -/
def ListsContracts (c : Config) (program : Path) (s : Session) : Prop :=
  ∀ report stdout contracts, (generate c (.solc program) s).2 = .ok report →
    usedOutput? program c.source c.artifacts s = some stdout → contractsOf stdout = .ok contracts →
    ∀ k ∈ contracts, IsContractName k.name → ∃ a, HasEntry c report a ∧
      ∃ l, (compiledFiles c program s).Denotes a l ∧
        (compiledFiles c program s).Denotes (artifactPath c.artifacts k.name) l

/-- A run that finds nothing has no entry for the contract. -/
theorem not_listsContracts_of_nothing (h : compiledAndFound c = (.ok (), .ok []))
    (hused : usedOutput? listingCompiler c.source c.artifacts listingSession = some listingOutput) :
    ¬ ListsContracts c listingCompiler listingSession := by
  intro hlists
  obtain ⟨hcompile, hfound⟩ := Prod.mk.inj h
  obtain ⟨_, hreport⟩ := exists_report hcompile hfound
  obtain ⟨a, hentry, _⟩ := hlists _ _ _ hreport hused contractsOf_listingOutput _
    (List.mem_singleton.mpr rfl) (by decide)
  rcases hentry with hgenerated | ⟨e, hskipped⟩
  · exact List.not_mem_nil hgenerated
  · exact List.not_mem_nil hskipped

/--
**Runs that do not list a contract**: they look for artifacts with another extension, or for files in
directories, or the search does not get to a directory whose path is one like `./` or is no text.
-/
theorem not_listsContracts_sample :
    listingSession.files.IsPlainTree ∧
      ¬ ListsContracts (listingConfig outDirectory "abi") listingCompiler listingSession ∧
      ¬ ListsContracts (listingConfig outDirectory "d/json") listingCompiler listingSession ∧
      ¬ ListsContracts (listingConfig (Path.ofString "./") "json") listingCompiler listingSession ∧
      ¬ ListsContracts (listingConfig ⟨[0xff]⟩ "json") listingCompiler listingSession :=
  ⟨by decide +kernel, not_listsContracts_of_nothing (by cbv) (by cbv),
    not_listsContracts_of_nothing (by cbv) (by cbv), not_listsContracts_of_nothing (by cbv) (by cbv),
    not_listsContracts_of_nothing (by cbv) (by cbv)⟩

end ContractBindings.Generate
