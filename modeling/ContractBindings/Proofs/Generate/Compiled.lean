import ContractBindings.Proofs.Compiler.Artifacts
import ContractBindings.Proofs.Generate.Batch

/-!
# From the output of a compiler to bindings

A run that compiles, from the sources to the bindings beside the artifacts.

* `IsFilled`: a directory that holds nothing but the artifacts of contracts;
* `binding?_artifact`: the binding of such an artifact is that of the last contract of its name;
* `isCompiledRun_of_isBatchRun`: so a batch run over the directory writes the binding of every contract;
* `generate_solc`: a run that compiles does this, unless a binding would be called `..`;
* `generate_blind`: but if its search is blind to the directory of the sources, it does nothing.
-/

set_option autoImplicit false

namespace ContractBindings.Generate

open Text ContractBindings.Path FileSystem Glob Compiler Json

/-! ## The place of a binding -/

def bindingAt (c : Config) (name : String) : Path := c.artifacts.join (Path.ofString (bindingName c name))

/-- An extension that bindings can have, so that they are no artifacts. -/
structure IsBindingExtension (extension : String) : Prop where
  no_slash : '/' ∉ extension.toList
  no_nul : '\x00' ∉ extension.toList
  ne : extension ≠ Config.defaultArtifactExtension
  not_behind : ∀ s, extension ≠ s ++ "." ++ Config.defaultArtifactExtension

theorem IsBindingExtension.areApart {extension : String} (h : IsBindingExtension extension) :
    AreApart Config.defaultArtifactExtension extension := by
  refine ⟨h.ne.symm, fun s hs => ?_, h.not_behind⟩
  have hdot : '.' ∈ Config.defaultArtifactExtension.toList := by rw [hs]; simp
  exact absurd hdot (by decide)

variable {c : Config} {name : String}

theorem stem_artifactName (h : name ≠ "") : stem (artifactName name) = encode name := by
  have hjson : artifactName name = encode name ++ dot :: encode "json" := by
    have htext : name ++ ".json" = name ++ ("." ++ "json") := rfl
    rw [artifactName, htext, encode_append, encode_append]
    rfl
  rw [hjson, stem_append (by decide), if_neg (mt encode_eq_nil_iff.mp h)]

theorem targetName_artifactName (h : name ≠ "") :
    targetName c (artifactName name) = encode (bindingName c name) := by
  rw [targetName, stem_artifactName h, bindingName_eq, encode_append, encode_append, List.append_assoc]
  rfl

/-- A binding would be called `..`. -/
def IsDots (c : Config) (name : String) : Prop := name = "." ∧ c.bindingExtension = ""

theorem bindingName_eq_dots_iff (h : name ≠ "") : bindingName c name = ".." ↔ IsDots c name := by
  have htext : (bindingName c name).toList = name.toList ++ '.' :: c.bindingExtension.toList := by
    simp [bindingName_eq]
  constructor
  · intro he
    rw [he] at htext
    cases hname : name.toList with
    | nil => exact absurd (String.toList_eq_nil_iff.mp hname) h
    | cons x xs =>
      rw [hname] at htext
      obtain ⟨hx, hrest⟩ := List.cons.inj htext
      cases xs with
      | nil =>
        refine ⟨String.toList_injective (by rw [hname, ← hx]; rfl), ?_⟩
        exact String.toList_eq_nil_iff.mp (List.cons.inj hrest).2.symm
      | cons y ys =>
        have hlength := congrArg List.length (List.cons.inj hrest).2
        simp at hlength
  · rintro ⟨hn, he⟩
    rw [bindingName_eq, hn, he]
    rfl

/-- **A binding can have its name unless that is `..`**. -/
theorem isName_bindingName_iff (h : IsContractName name) (hext : IsBindingExtension c.bindingExtension) :
    IsName (encode (bindingName c name)) ↔ ¬ IsDots c name := by
  have hlong : 2 ≤ (bindingName c name).toList.length := by
    have hpos := List.length_pos_of_ne_nil (mt String.toList_eq_nil_iff.mp h.ne_empty)
    simp [bindingName_eq] at hpos ⊢
    omega
  have hshort : ∀ other : String, other.toList.length < 2 → bindingName c name ≠ other := by
    rintro _ hlength rfl
    omega
  have hclean : ∀ x : Char, x ∉ name.toList → x ∉ c.bindingExtension.toList → x ≠ '.' →
      x ∉ (bindingName c name).toList := by
    intro x hn he hdot
    simp [bindingName_eq, hn, he, hdot]
  rw [isName_encode_iff, Ne, Ne, Ne, bindingName_eq_dots_iff h.ne_empty]
  constructor
  · exact fun hname => hname.2.2.1
  · exact fun hdots => ⟨hshort _ (by decide), hshort _ (by decide), hdots,
      hclean _ h.no_slash hext.no_slash (by decide), hclean _ h.no_nul hext.no_nul (by decide)⟩

/-! ## A directory of artifacts -/

/-- A directory that holds the artifacts of contracts and nothing else. -/
structure IsFilled (fs : FileSystem) (p : Path) (d : Location) (contracts : List CompiledContract) :
    Prop where
  plain : fs.IsPlainTree
  denotes : fs.Denotes p d
  directory : fs.isDirectoryAt d = true
  bytes : ∀ name, fs.bytesAt? (d ++ [artifactName name]) = (lastNamed? contracts name).map artifactBytes
  file_iff : ∀ way, way ≠ [] →
    ((fs.bytesAt? (d ++ way)).isSome ↔ ∃ k ∈ contracts, way = [artifactName k.name])
  not_directory : ∀ way, way ≠ [] → fs.isDirectoryAt (d ++ way) = false

/-- What a contract has to be like to have a binding. -/
structure IsBindable (k : CompiledContract) : Prop where
  name : IsContractName k.name
  abi : IsExact maxAbiDepth (.array k.abi)

section Filled

variable {fs after : FileSystem} {p : Path} {d : Location} {contracts : List CompiledContract}
  {found : List Path} {report : Report} (h : IsFilled fs p d contracts)
include h

theorem isArtifact_artifact {k : CompiledContract} (hk : k ∈ contracts) :
    IsArtifact fs (below p (artifactName k.name)) d (artifactName k.name) := by
  have hfile : (fs.bytesAt? (d ++ ([] ++ [artifactName k.name]))).isSome :=
    (h.file_iff [artifactName k.name] (by simp)).mpr ⟨k, hk, rfl⟩
  have hin := isFileIn_spell h.plain h.denotes hfile
  rw [List.append_nil] at hin
  exact ⟨hin, _, rfl⟩

/-- The listing of the directory has one path for each name of a contract. -/
theorem mem_listing_iff (hlisting : IsListing fs Config.defaultArtifactExtension p d found) {a : Path} :
    a ∈ found ↔ ∃ k ∈ contracts, a = below p (artifactName k.name) := by
  rw [hlisting.mem_iff]
  constructor
  · rintro ⟨before, n, rfl, _, hb⟩
    obtain ⟨k, hk, hway⟩ := (h.file_iff _ (by simp)).mp hb
    exact ⟨k, hk, by rw [hway]; rfl⟩
  · rintro ⟨k, hk, rfl⟩
    exact ⟨[], artifactName k.name, rfl, hasExtension_artifactName k.name,
      (h.file_iff _ (by simp)).mpr ⟨k, hk, rfl⟩⟩

variable (hext : IsBindingExtension c.bindingExtension)
include hext

/-- **The binding of an artifact is that of the last contract of its name**, unless it would be called
`..`. -/
theorem binding?_artifact (hgood : ∀ k ∈ contracts, IsBindable k) {k : CompiledContract}
    (hk : lastNamed? contracts name = some k) :
    binding? c fs (below p (artifactName name)) =
      if bindingName c name = ".." then none else some (encode (bindingOf c name ⟨k.abi⟩).source) := by
  obtain ⟨hmem, rfl⟩ := lastNamed?_eq_some hk
  obtain ⟨hname, habi⟩ := hgood k hmem
  have hart := isArtifact_artifact h hmem
  obtain ⟨ps, hpieces⟩ := hart.pieces
  have hcontract : contractName (below p (artifactName k.name)) = k.name := by
    rw [contractName_eq hpieces hart.name, stem_artifactName hname.ne_empty, decodeLossy_encode]
  have hdirectory := isDirectory_bindingPath (c := c) h.plain hart hext.no_slash hext.no_nul
  rw [targetName_artifactName hname.ne_empty, isName_bindingName_iff hname hext,
    h.not_directory _ (by simp), ← bindingName_eq_dots_iff hname.ne_empty] at hdirectory
  have htext : decode? (artifactBytes k) = some (pretty "  " k.artifact) := decode?_encode _
  rw [binding?, contentsAt_eq h.plain hart.denotes, h.bytes, hk, hcontract]
  simp only [Option.map_some, Option.elim_some, htext, Option.bind_some, ofText_artifact habi,
    Except.toOption]
  by_cases hdots : bindingName c k.name = ".."
  · rw [if_pos hdots, if_pos (hdirectory.mpr fun hnot => absurd hdots hnot)]
  · rw [if_neg hdots, if_neg fun hd => Bool.false_ne_true (hdirectory.mp hd hdots)]

theorem place_bindingPath {k : CompiledContract} (hk : k ∈ contracts) (hname : IsContractName k.name)
    (hdots : ¬ IsDots c k.name) :
    (bindingPath c (below p (artifactName k.name))).place =
      p.place ++ [.normal (encode (bindingName c k.name))] := by
  have hart := isArtifact_artifact h hk
  obtain ⟨ps, hpieces⟩ := hart.pieces
  have htarget := targetName_artifactName (c := c) hname.ne_empty
  have hbinding := (isName_bindingName_iff hname hext).mpr hdots
  obtain ⟨above, hplace, hbeside⟩ := place_withFileName hpieces hart.name hbinding.no_separator
  rw [place_below h.denotes.ne_nil hart.name.no_separator, component?_of_isName hart.name] at hplace
  have habove : above = p.place := (List.append_inj_left' hplace rfl).symm
  rw [bindingPath_eq hpieces hart.name hart.text, htarget, hbeside, habove,
    component?_of_isName hbinding]
  rfl

/-- Contracts with one binding path have one name. -/
theorem name_eq_of_bindingPath {k k' : CompiledContract} (hk : k ∈ contracts) (hk' : k' ∈ contracts)
    (hname : IsContractName k.name) (hname' : IsContractName k'.name) (hdots : ¬ IsDots c k.name)
    (hdots' : ¬ IsDots c k'.name)
    (he : bindingPath c (below p (artifactName k.name)) =
      bindingPath c (below p (artifactName k'.name))) :
    k.name = k'.name := by
  have hplace := congrArg Path.place he
  rw [place_bindingPath h hext hk hname hdots, place_bindingPath h hext hk' hname' hdots',
    List.append_cancel_left_eq] at hplace
  have hnames := encode_injective (Component.normal.inj (List.cons.inj hplace).1)
  have hchars := congrArg String.toList hnames
  simp only [bindingName_eq, String.append_assoc, String.toList_append] at hchars
  exact String.toList_injective (List.append_cancel_right hchars)

end Filled

/-- The listing of a directory of artifacts has one path for each name. -/
theorem perm_listing {fs : FileSystem} {p : Path} {d : Location} {contracts : List CompiledContract}
    {found : List Path} (h : IsFilled fs p d contracts)
    (hlisting : IsListing fs Config.defaultArtifactExtension p d found) :
    found.Perm ((contracts.map (·.name)).dedup.map fun name => below p (artifactName name)) := by
  have hinjective : ∀ k ∈ contracts, ∀ k' ∈ contracts,
      below p (artifactName k.name) = below p (artifactName k'.name) → k.name = k'.name := by
    intro k hk k' hk' he
    have hplace := congrArg Path.place he
    have hart := isArtifact_artifact h hk
    have hart' := isArtifact_artifact h hk'
    rw [place_below h.denotes.ne_nil hart.name.no_separator, component?_of_isName hart.name,
      place_below h.denotes.ne_nil hart'.name.no_separator, component?_of_isName hart'.name,
      List.append_cancel_left_eq] at hplace
    exact artifactName_injective (Component.normal.inj (List.cons.inj hplace).1)
  refine (List.perm_ext_iff_of_nodup hlisting.nodup ?_).mpr fun a => ?_
  · refine (List.nodup_dedup _).map_on ?_
    intro x hx y hy he
    obtain ⟨k, hk, rfl⟩ := List.mem_map.mp (List.mem_dedup.mp hx)
    obtain ⟨k', hk', rfl⟩ := List.mem_map.mp (List.mem_dedup.mp hy)
    exact hinjective k hk k' hk' he
  · rw [mem_listing_iff h hlisting, List.mem_map]
    constructor
    · rintro ⟨k, hk, rfl⟩
      exact ⟨k.name, List.mem_dedup.mpr (List.mem_map_of_mem hk), rfl⟩
    · rintro ⟨_, hname, rfl⟩
      obtain ⟨k, hk, rfl⟩ := List.mem_map.mp (List.mem_dedup.mp hname)
      exact ⟨k, hk, rfl⟩

theorem place_bindingAt (hne : c.artifacts.bytes ≠ []) (hname : IsName (encode (bindingName c name))) :
    (bindingAt c name).place = c.artifacts.place ++ [.normal (encode (bindingName c name))] := by
  have hplace := place_join hne hname.no_separator
  rw [component?_of_isName hname] at hplace
  exact hplace

/-! ## The whole run -/

/--
What a run that compiles is there for.  Nothing is skipped; the bindings of all names of contracts are
reported, each once and at its place; and each holds the binding of the last contract of its name.
-/
structure IsCompiledRun (c : Config) (contracts : List CompiledContract) (after : FileSystem)
    (report : Report) : Prop where
  skipped : report.skipped = []
  generated : (report.generated.map Path.place).Perm
    ((contracts.map (·.name)).dedup.map fun name => (bindingAt c name).place)
  written : ∀ name k, lastNamed? contracts name = some k →
    after.contentsAt (bindingAt c name) = .ok (encode (bindingOf c name ⟨k.abi⟩).source)

section Filled

variable {fs after : FileSystem} {p : Path} {d : Location} {contracts : List CompiledContract}
  {found : List Path} {report : Report} (h : IsFilled fs p d contracts)
  (hext : IsBindingExtension c.bindingExtension) (hgood : ∀ k ∈ contracts, IsBindable k)
  (hlisting : IsListing fs Config.defaultArtifactExtension p d found)
include h hext hgood hlisting

theorem isSome_binding? (hdots : ∀ k ∈ contracts, ¬ IsDots c k.name) {a : Path} (ha : a ∈ found) :
    (binding? c fs a).isSome := by
  obtain ⟨k, hk, rfl⟩ := (mem_listing_iff h hlisting).mp ha
  obtain ⟨k', hk'⟩ := exists_lastNamed? hk
  have hne := (hgood k hk).name.ne_empty
  rw [binding?_artifact h hext hgood hk',
    if_neg (mt (bindingName_eq_dots_iff hne).mp (hdots k hk))]
  rfl

variable (hrun : IsBatchRun c fs after found report)
include hrun

/-- What is reported are the places of the bindings. -/
theorem perm_generated (hden : after.Denotes c.artifacts d) (hplace : p.place = c.artifacts.place)
    (hdots : ∀ k ∈ contracts, ¬ IsDots c k.name) :
    (report.generated.map Path.place).Perm
      ((contracts.map (·.name)).dedup.map fun name => (bindingAt c name).place) := by
  have hall : (found.filter fun a => (binding? c fs a).isSome) = found :=
    List.filter_eq_self.mpr fun a ha => isSome_binding? h hext hgood hlisting hdots ha
  rw [hrun.generated, hall]
  refine ((((perm_listing h hlisting).map (bindingPath c)).map Path.place)).trans ?_
  rw [List.map_map, List.map_map]
  refine List.Perm.of_eq (List.map_congr_left fun name hname => ?_)
  obtain ⟨k, hk, rfl⟩ := List.mem_map.mp (List.mem_dedup.mp hname)
  have hbinding := (isName_bindingName_iff (hgood k hk).name hext).mpr (hdots k hk)
  rw [place_bindingAt hden.ne_nil hbinding, ← hplace]
  exact place_bindingPath h hext hk (hgood k hk).name (hdots k hk)

/-- Each place holds the binding of the last contract of its name. -/
theorem contentsAt_bindingAt (hafter : after.IsPlainTree) (hden : after.Denotes c.artifacts d)
    (hdots : ∀ k ∈ contracts, ¬ IsDots c k.name) {k : CompiledContract}
    (hk : lastNamed? contracts name = some k) :
    after.contentsAt (bindingAt c name) = .ok (encode (bindingOf c name ⟨k.abi⟩).source) := by
  obtain ⟨hmem, rfl⟩ := lastNamed?_eq_some hk
  have hname := (hgood k hmem).name
  have hnot := mt (bindingName_eq_dots_iff hname.ne_empty).mp (hdots k hmem)
  have hbinding := (isName_bindingName_iff hname hext).mpr (hdots k hmem)
  have hart := isArtifact_artifact h hmem
  have hfound : below p (artifactName k.name) ∈ found := (mem_listing_iff h hlisting).mpr ⟨k, hmem, rfl⟩
  have hsome := isSome_binding? h hext hgood hlisting hdots hfound
  -- the path that is reported and the place lead to one file
  obtain ⟨e, n, hfrom, hto⟩ := hrun.beside _ hfound hsome
  obtain ⟨rfl, hn⟩ := List.append_inj' (hart.denotes.unique hfrom) rfl
  cases hn
  have htarget : stem (artifactName k.name) ++ encode ("." ++ c.bindingExtension) =
      encode (bindingName c k.name) := by
    rw [stem_artifactName hname.ne_empty, ← encode_append, bindingName_eq, String.append_assoc]
  rw [htarget] at hto
  have hthere : after.Denotes (bindingAt c k.name) (d ++ [encode (bindingName c k.name)]) :=
    Denotes.join hafter hden hbinding (hto.entryAt? hafter)
  -- and no other artifact is bound there
  have hreported : bindingPath c (below p (artifactName k.name)) ∈ report.generated := by
    rw [hrun.generated]
    exact List.mem_map_of_mem (List.mem_filter.mpr ⟨hfound, hsome⟩)
  obtain ⟨a, b, hlast, hb, hcontents⟩ := hrun.written _ hreported
  obtain ⟨ha, hsame⟩ := List.mem_filter.mp (List.mem_of_getLast? hlast)
  obtain ⟨k', hk', rfl⟩ := (mem_listing_iff h hlisting).mp ha
  rw [Bool.and_eq_true, decide_eq_true_eq] at hsame
  have hnames := name_eq_of_bindingPath h hext hk' hmem (hgood k' hk').name hname (hdots k' hk')
    (hdots k hmem) hsame.2
  rw [hnames, binding?_artifact h hext hgood hk, if_neg hnot] at hb
  cases hb
  rw [contentsAt_eq hafter hthere, ← contentsAt_eq hafter hto, hcontents]

/-- **A batch run over the directory binds every contract**, if no binding would be called `..`. -/
theorem isCompiledRun_of_isBatchRun (hafter : after.IsPlainTree) (hden : after.Denotes c.artifacts d)
    (hplace : p.place = c.artifacts.place) (hdots : ∀ k ∈ contracts, ¬ IsDots c k.name) :
    IsCompiledRun c contracts after report := by
  refine ⟨?_, perm_generated h hext hgood hlisting hrun hden hplace hdots,
    fun name k hk => contentsAt_bindingAt h hext hgood hlisting hrun hafter hden hdots hk⟩
  have hskipped := hrun.skipped
  have hnone : (found.filter fun a => (binding? c fs a).isNone) = [] := by
    rw [List.filter_eq_nil_iff]
    intro a ha
    have hsome := isSome_binding? h hext hgood hlisting hdots ha
    rw [Option.isNone_iff_eq_none]
    intro hnil
    rw [hnil] at hsome
    cases hsome
  rw [hnone, List.map_eq_nil_iff] at hskipped
  exact hskipped

/-- Otherwise an artifact is skipped. -/
theorem skipped_of_isDots {k : CompiledContract} (hk : k ∈ contracts) (hdots : IsDots c k.name) :
    report.skipped ≠ [] := by
  obtain ⟨k', hk'⟩ := exists_lastNamed? hk
  have hne := (hgood k hk).name.ne_empty
  intro hnil
  have hskipped := hrun.skipped
  rw [hnil, List.map_nil, eq_comm, List.filter_eq_nil_iff] at hskipped
  apply hskipped _ ((mem_listing_iff h hlisting).mpr ⟨k, hk, rfl⟩)
  rw [binding?_artifact h hext hgood hk', if_pos ((bindingName_eq_dots_iff hne).mpr hdots)]
  rfl

end Filled

/-- The configuration of a source directory, with another dialect and another extension of bindings. -/
def bindingConfig (source : Path) (dialect : Binding.Dialect) (extension : String) : Config :=
  { Config.ofSource source with dialect := dialect, bindingExtension := extension }

def artifactsName : Name := encode "artifacts"

theorem isName_artifactsName : IsName artifactsName := isName_encode_iff.mpr (by decide)

/-- No artifacts directory: there is no entry of its name. -/
theorem vacant_of_not_pathExists {fs : FileSystem} (hfs : fs.IsPlainTree) {source : Path} {l : Location}
    (hden : fs.Denotes source l) {n : Name} (hn : IsName n)
    (h : fs.pathExists (source.join ⟨n⟩) = false) : fs.entryAt? (l ++ [n]) = none := by
  by_contra he
  obtain ⟨e, he'⟩ := Option.ne_none_iff_exists'.mp he
  rw [pathExists, lookup_of_denotes (Denotes.join hfs hden hn he) he'] at h
  cases h

/-- Nothing is found in a directory of artifacts that does not exist. -/
theorem findArtifacts_of_not_pathExists {fs : FileSystem} (hfs : fs.IsPlainTree) {text : String}
    {l : Location} (hden : fs.Denotes (Path.ofString text) l)
    (h : fs.pathExists ((Path.ofString text).join ⟨artifactsName⟩) = false) :
    findArtifacts fs ((Path.ofString text).join ⟨artifactsName⟩) Config.defaultArtifactExtension =
      .ok [] := by
  have hne : text ≠ "" := fun e => hden.ne_nil (encode_eq_nil_iff.mpr e)
  have hsep := isName_artifactsName.no_separator
  have hnil := join_ne_nil hden.ne_nil hsep
  have hzero : (0 : UInt8) ∉ ((Path.ofString text).join ⟨artifactsName⟩).bytes := by
    rw [mem_bytes_join hden.ne_nil hsep (by decide), not_or]
    exact ⟨hden.no_nul, isName_artifactsName.no_nul⟩
  have hnot : fs.isDirectory ((Path.ofString text).join ⟨artifactsName⟩) = false := by
    unfold pathExists at h
    unfold isDirectory
    cases hlookup : fs.lookup true ((Path.ofString text).join ⟨artifactsName⟩) with
    | error e => rfl
    | ok e => rw [hlookup] at h; cases h
  obtain ⟨joined, hjoined⟩ := exists_ofString_join hne "artifacts" (by decide)
  have hjoined' : (Path.ofString text).join ⟨artifactsName⟩ = Path.ofString joined := hjoined
  rw [hjoined'] at hnil hzero hnot ⊢
  exact filesBelow_of_not_directory hfs (by decide) (fun e => hnil (encode_eq_nil_iff.mpr e)) hzero hnot

/-- A directory that is made in sight of a search is reached, at its place. -/
theorem exists_reached {fs fs' : FileSystem} {text : String} {l : Location}
    (hsource : HoldsSource fs (Path.ofString text) l) (hsight : ¬ IsBlind (Path.ofString text))
    (hplain : fs'.IsPlainTree) (hgrows : fs.Grows fs')
    (hd : fs'.isDirectoryAt (l ++ [artifactsName]) = true) (hfs : fs.IsPlainTree) :
    fs'.Denotes ((Path.ofString text).join ⟨artifactsName⟩) (l ++ [artifactsName]) ∧
      ∃ p, reached? fs' ((Path.ofString text).join ⟨artifactsName⟩) = some p ∧
        fs'.Denotes p (l ++ [artifactsName]) ∧
        p.place = ((Path.ofString text).join ⟨artifactsName⟩).place := by
  have hn := isName_artifactsName
  have hne : text ≠ "" := fun e => hsource.denotes.ne_nil (encode_eq_nil_iff.mpr e)
  have hden : fs'.Denotes ((Path.ofString text).join ⟨artifactsName⟩) (l ++ [artifactsName]) :=
    Denotes.join hplain (hsource.denotes.mono hfs hplain hgrows) hn
      (by rw [isDirectoryAt_iff.mp hd]; simp)
  have hblind := not_isBlind_join hsource.denotes.ne_nil hn hsight
  obtain ⟨joined, hjoined⟩ := exists_ofString_join hne "artifacts" (by decide)
  have hjoined' : (Path.ofString text).join ⟨artifactsName⟩ = Path.ofString joined := hjoined
  refine ⟨hden, ?_⟩
  rw [hjoined'] at hden hblind ⊢
  exact reached?_ofString hplain hden hd hblind

/-- A run over a listing is a batch run, and the tree stays plain and only grows. -/
theorem isBatchRun_of_listing {fs : FileSystem} {s : Session} {c : Config} {p : Path} {d : Location}
    {found : List Path} (hs : s.files = fs) (hfs : fs.IsPlainTree)
    (hlisting : IsListing fs Config.defaultArtifactExtension p d found)
    (hext : IsBindingExtension c.bindingExtension) :
    IsBatchRun c fs (bindAll c s found).1.files found
        ⟨found.length, (bindAll c s found).2.1, (bindAll c s found).2.2⟩ ∧
      (bindAll c s found).1.files.IsPlainTree ∧ fs.Grows (bindAll c s found).1.files := by
  subst hs
  have hart := areArtifacts_of_isListing hfs hlisting
  obtain ⟨hplain, hgrows, _⟩ := hart.run (c := c)
  rw [bindAll_files hart hext.no_slash]
  refine ⟨?_, hplain, hgrows⟩
  rw [← bindAll_files hart hext.no_slash]
  exact isBatchRun_bindAll hfs hlisting hext.areApart hext.no_slash hext.no_nul

/-- A run that finds nothing is what it should be only if there is no contract. -/
theorem eq_nil_of_isCompiledRun {contracts : List CompiledContract} {after : FileSystem}
    (h : IsCompiledRun c contracts after ⟨0, [], []⟩) : contracts = [] := by
  have hperm := h.generated
  rw [List.map_nil, List.nil_perm, List.map_eq_nil_iff, List.dedup_eq_nil, List.map_eq_nil_iff] at hperm
  exact hperm

/--
What a run that compiles is given: a tree without links and with sources, no artifacts yet, a compiler that
works, and contracts that can be named, written and read back.
-/
structure IsSetUp (s : Session) (text : String) (program : Path) (contracts : List CompiledContract)
    (extension : String) : Prop where
  plain : s.files.IsPlainTree
  source : ∃ l, HoldsSource s.files (Path.ofString text) l
  vacant : s.files.pathExists (Config.ofSource (Path.ofString text)).artifacts = false
  solc : Compiles s program contracts
  extension : IsBindingExtension extension
  name : ∀ k ∈ contracts, IsContractName k.name
  notReal : ∀ k ∈ contracts, Everywhere (fun v => ¬ IsReal v) (.array k.abi)
  fits : ∀ k ∈ contracts, Fits 126 (.array k.abi)

variable {s : Session} {text extension : String} {program : Path} {contracts : List CompiledContract}

theorem IsSetUp.isBindable (h : IsSetUp s text program contracts extension) {k : CompiledContract}
    (hk : k ∈ contracts) : IsBindable k := by
  obtain ⟨_, _, _, _, hcontracts⟩ := h.solc
  exact ⟨h.name k hk, h.fits k hk, regular_of_contractsOf hcontracts hk, h.notReal k hk⟩

/-- **A run whose search is blind does nothing**, and says that it has done well. -/
theorem generate_blind (h : IsSetUp s text program contracts extension) (dialect : Binding.Dialect)
    (hblind : IsBlind (Path.ofString text)) :
    ∃ s', generate (bindingConfig (Path.ofString text) dialect extension) (.solc program) s =
      (s', .ok ⟨0, [], []⟩) := by
  obtain ⟨l, hsource⟩ := h.source
  have hne : text ≠ "" := fun e => hsource.denotes.ne_nil (encode_eq_nil_iff.mpr e)
  obtain ⟨s₁, hcompile, hfiles⟩ := compileWith_blind
    (s := s.tell (.compiling (Path.ofString text))) h.plain hne hblind h.solc
    ((Path.ofString text).join ⟨artifactsName⟩)
  have hfound := findArtifacts_of_not_pathExists h.plain hsource.denotes h.vacant
  obtain ⟨s', _, _, hreport⟩ := generate_of_compiled (.solc program) (s := s)
    (c := bindingConfig (Path.ofString text) dialect extension) hcompile (hfiles ▸ hfound)
  exact ⟨_, Prod.ext rfl hreport⟩

/-- **A run that compiles in sight of its search is a batch run** over the artifacts of the contracts. -/
theorem exists_batchRun (h : IsSetUp s text program contracts extension) (dialect : Binding.Dialect)
    (hsight : ¬ IsBlind (Path.ofString text)) :
    ∃ s' report fs p d found,
      generate (bindingConfig (Path.ofString text) dialect extension) (.solc program) s =
        (s', .ok report) ∧
      IsFilled fs p d contracts ∧ IsListing fs Config.defaultArtifactExtension p d found ∧
      IsBatchRun (bindingConfig (Path.ofString text) dialect extension) fs s'.files found report ∧
      s'.files.IsPlainTree ∧ s'.files.Denotes ((Path.ofString text).join ⟨artifactsName⟩) d ∧
      p.place = ((Path.ofString text).join ⟨artifactsName⟩).place := by
  obtain ⟨l, hsource⟩ := h.source
  have hn := isName_artifactsName
  have hfs := h.plain
  have hdir := hsource.isDirectoryAt hfs
  have hvacant := vacant_of_not_pathExists hfs hsource.denotes hn h.vacant
  obtain ⟨s₁, hcompile, hfiles⟩ := compileWith_sighted
    (s := s.tell (.compiling (Path.ofString text))) hfs hsource hsight hn hvacant h.solc h.name
  -- the tree with the artifacts, and the path by which they are found
  obtain ⟨hplain, hgrows, hfilled⟩ := filled_plain hfs hvacant hn hdir h.name
  obtain ⟨hden, p, hp, hpden, hplace⟩ := exists_reached hsource hsight hplain hgrows hfilled hfs
  have hdirectory : IsFilled (filled s.files (l ++ [artifactsName]) contracts) p (l ++ [artifactsName])
      contracts :=
    ⟨hplain, hpden, hfilled, bytesAt?_filled hfs.isNested hvacant,
      fun _ => bytesAt?_filled_isSome_iff hfs.isNested hvacant,
      fun _ => isDirectoryAt_filled hfs.isNested hvacant⟩
  have hjson : IsPlainExtension Config.defaultArtifactExtension := by decide
  obtain ⟨found, hfound, hlisting⟩ := filesBelow_of_reached hplain hjson hp hpden
  obtain ⟨s', hs', hafter, hreport⟩ := generate_of_compiled (.solc program) (s := s)
    (c := bindingConfig (Path.ofString text) dialect extension) hcompile (hfiles ▸ hfound)
  obtain ⟨hbatch, hend, hmore⟩ := isBatchRun_of_listing (hs'.trans hfiles) hplain hlisting h.extension
    (c := bindingConfig (Path.ofString text) dialect extension)
  rw [← hafter] at hbatch hend hmore
  exact ⟨_, _, _, p, _, found, Prod.ext rfl hreport, hdirectory, hlisting, hbatch, hend,
    hden.mono hplain hend hmore, hplace⟩

/-- A run that would call a binding `..` skips an artifact. -/
theorem generate_dots (h : IsSetUp s text program contracts "") (dialect : Binding.Dialect)
    (hsight : ¬ IsBlind (Path.ofString text)) {k : CompiledContract} (hk : k ∈ contracts)
    (hname : k.name = ".") :
    ∃ s' report,
      generate (bindingConfig (Path.ofString text) dialect "") (.solc program) s = (s', .ok report) ∧
        report.skipped ≠ [] := by
  obtain ⟨s', report, _, _, _, _, hrun, hfilled, hlisting, hbatch, _⟩ :=
    exists_batchRun h dialect hsight
  exact ⟨s', report, hrun, skipped_of_isDots hfilled h.extension (fun _ => h.isBindable) hlisting hbatch
    hk ⟨hname, rfl⟩⟩

/--
**From the output of a compiler to bindings.**  A run that compiles succeeds, and if the directory of the
sources is in sight of a search, it binds every contract unless a binding would be called `..`.
-/
theorem generate_solc (h : IsSetUp s text program contracts extension) (dialect : Binding.Dialect)
    (hsight : ¬ IsBlind (Path.ofString text)) :
    ∃ s' report,
      generate (bindingConfig (Path.ofString text) dialect extension) (.solc program) s =
        (s', .ok report) ∧
      (IsCompiledRun (bindingConfig (Path.ofString text) dialect extension) contracts s'.files report ↔
        ¬ (extension = "" ∧ ∃ k ∈ contracts, k.name = ".")) := by
  obtain ⟨s', report, fs, p, d, found, hrun, hfilled, hlisting, hbatch, hplain, hden, hplace⟩ :=
    exists_batchRun h dialect hsight
  have hgood : ∀ k ∈ contracts, IsBindable k := fun k => h.isBindable
  refine ⟨s', report, hrun, ?_⟩
  constructor
  · rintro hcompiled ⟨he, k, hk, hname⟩
    exact skipped_of_isDots hfilled h.extension hgood hlisting hbatch hk ⟨hname, he⟩
      hcompiled.skipped
  · intro hnot
    refine isCompiledRun_of_isBatchRun hfilled h.extension hgood hlisting hbatch hplain hden hplace ?_
    rintro k hk ⟨hname, he⟩
    exact hnot ⟨he, k, hk, hname⟩

/-! ## A sample -/

/-- The output of a compiler: a contract `T`, and one called `.` whose ABI is a text. -/
def compiledOutput : String :=
  "\x7b\"contracts\":\x7b\"T.sol:T\":\x7b\"abi\":[\x7b\"type\":\"receive\"\x7d]\x7d,"
    ++ "\"T.sol:.\":\x7b\"abi\":\"[]\"\x7d\x7d\x7d"

def compiledContracts : List CompiledContract :=
  [⟨"T", "T.sol", [.object [("type", .string "receive")]], "0x"⟩, ⟨".", "T.sol", [], "0x"⟩]

/-- The compiler that leaves the sample behind. -/
def compilerProgram : Program := ⟨.code 0, .code 0, encode compiledOutput, []⟩

/-- A working directory `w` with a source and the compiler. -/
def compileSession : Session where
  files :=
    ⟨[([encode "w"], .directory),
      ([encode "w", encode "T.sol"], .file []),
      ([encode "w", encode "solc"], .program compilerProgram)], [encode "w"]⟩
  searchPath := []

theorem contractsOf_compiledOutput : contractsOf compiledOutput = .ok compiledContracts := by cbv

theorem compiles_sample : Compiles compileSession (Path.ofString "./solc") compiledContracts := by
  refine ⟨compilerProgram, by decide +kernel, rfl, rfl, ?_⟩
  rw [compilerProgram, decodeLossy_encode]
  exact contractsOf_compiledOutput

/-- The sample is set up for every way to spell the working directory, and for bindings of every
extension that they can have. -/
theorem isSetUp_sample {text extension : String}
    (hden : compileSession.files.Denotes (Path.ofString text) [encode "w"])
    (hvacant : compileSession.files.pathExists (Config.ofSource (Path.ofString text)).artifacts = false)
    (hext : IsBindingExtension extension) :
    IsSetUp compileSession text (Path.ofString "./solc") compiledContracts extension := by
  have hreal : ∀ v ∈ [Json.object [("type", .string "receive")]],
      Everywhere (fun v => ¬ IsReal v) v := by
    intro v hv
    rw [List.mem_singleton.mp hv, everywhere_object_iff]
    refine ⟨id, fun m hm => ?_⟩
    rw [List.mem_singleton.mp hm]
    exact everywhere_scalar (by simp) (by simp) id
  refine ⟨by decide +kernel, ⟨_, hden, [], encode "T.sol", ⟨"T", rfl⟩, by decide +kernel⟩, hvacant,
    compiles_sample, hext, by decide, ?_, ?_⟩
  · intro k hk
    rcases List.mem_pair.mp hk with rfl | rfl
    · exact everywhere_array_iff.mpr ⟨id, hreal⟩
    · exact everywhere_array_iff.mpr ⟨id, by simp⟩
  · intro k hk
    rcases List.mem_pair.mp hk with rfl | rfl
    · intro v hv
      rw [List.mem_singleton.mp hv]
      intro m hm
      rw [List.mem_singleton.mp hm]
      trivial
    · intro v hv
      cases hv

theorem isBindingExtension_ts : IsBindingExtension "ts" := by
  refine ⟨by decide, by decide, by decide, fun s h => ?_⟩
  have hlast := congrArg (fun t : String => t.toList.getLast?) h
  simp [String.toList_append, Config.defaultArtifactExtension] at hlast

theorem isBindingExtension_empty : IsBindingExtension "" := by
  refine ⟨by decide, by decide, by decide, fun s h => ?_⟩
  have hlast := congrArg (fun t : String => t.toList.getLast?) h
  simp [String.toList_append, Config.defaultArtifactExtension] at hlast

theorem isSetUp_current {extension : String} (hext : IsBindingExtension extension) :
    IsSetUp compileSession "." (Path.ofString "./solc") compiledContracts extension :=
  isSetUp_sample (by cbv) (by decide +kernel) hext

theorem isSetUp_slash : IsSetUp compileSession "./" (Path.ofString "./solc") compiledContracts "ts" :=
  isSetUp_sample (by cbv) (by decide +kernel) isBindingExtension_ts

theorem not_isBlind_current : ¬ IsBlind (Path.ofString ".") := by
  rintro ⟨_, h⟩
  cases h

/-- The run over the sample. -/
theorem generate_solc_sample :
    ∃ s' report,
      generate (bindingConfig (Path.ofString ".") .default "ts") (.solc (Path.ofString "./solc"))
        compileSession = (s', .ok report) ∧
      (IsCompiledRun (bindingConfig (Path.ofString ".") .default "ts") compiledContracts s'.files report ↔
        ¬ ("ts" = "" ∧ ∃ k ∈ compiledContracts, k.name = ".")) :=
  generate_solc (isSetUp_current isBindingExtension_ts) .default not_isBlind_current

/--
Two runs over the sample that do not bind every contract: the binding of `.` would be called `..`, and the
search is blind to `./`.
-/
theorem not_isCompiledRun_sample :
    (IsSetUp compileSession "." (Path.ofString "./solc") compiledContracts "" ∧
      ¬ ∃ s' report,
        generate (bindingConfig (Path.ofString ".") .default "") (.solc (Path.ofString "./solc"))
          compileSession = (s', .ok report) ∧
        IsCompiledRun (bindingConfig (Path.ofString ".") .default "") compiledContracts s'.files report) ∧
    (IsSetUp compileSession "./" (Path.ofString "./solc") compiledContracts "ts" ∧
      ¬ ∃ s' report,
        generate (bindingConfig (Path.ofString "./") .default "ts") (.solc (Path.ofString "./solc"))
          compileSession = (s', .ok report) ∧
        IsCompiledRun (bindingConfig (Path.ofString "./") .default "ts") compiledContracts s'.files
          report) := by
  constructor
  · have hset := isSetUp_current isBindingExtension_empty
    refine ⟨hset, ?_⟩
    rintro ⟨s', report, hrun, hcompiled⟩
    obtain ⟨s'', report', hrun', hskipped⟩ :=
      generate_dots hset .default not_isBlind_current (List.mem_cons_of_mem _ List.mem_cons_self) rfl
    rw [hrun] at hrun'
    cases hrun'
    exact hskipped hcompiled.skipped
  · refine ⟨isSetUp_slash, ?_⟩
    rintro ⟨s', report, hrun, hcompiled⟩
    obtain ⟨s'', hrun'⟩ := generate_blind isSetUp_slash .default ⟨by decide, by decide +kernel⟩
    rw [hrun] at hrun'
    cases hrun'
    exact absurd (eq_nil_of_isCompiledRun hcompiled) (by simp [compiledContracts])

end ContractBindings.Generate
