import ContractBindings.Manifest
import ContractBindings.Proofs.Compiler.Artifacts

/-!
# Sources and the directory of the artifacts

A source is left out if the components of its path begin with those of the directory of the artifacts.
That compares spellings: a search loses a leading `./`, and the directory of the artifacts may have one.

* `location_of_place`: in a tree without links the place that a path spells tells where it leads;
* `components_spell`: what a search finds is spelled without a leading `./`;
* `keepsOut_iff`: so what lies in the directory of the artifacts is left out if the path of that directory
  is spelled as the search would spell it, and not otherwise;
* `sources_keepOut`: the same for the path that was given; below `.` the default directory is not left
  out (`not_keepsOut_current`).
-/

set_option autoImplicit false

namespace ContractBindings

/-! ## Where a place is -/

namespace FileSystem

open ContractBindings.Path

variable {fs : FileSystem}

/-- The location behind a component. -/
def move (l : Location) : Component → Location
  | .root => []
  | .current => l
  | .parent => l.dropLast
  | .normal n => l ++ [n]

/-- A walk without links goes where the components of its pieces go. -/
theorem location_of_route (hfs : fs.IsPlainTree) {l m : Location} {pieces : List Text.Bytes}
    (h : fs.route l (pieces.map stepOfPiece) = .ok (.found m)) :
    m = (pieces.filterMap component?).foldl move l := by
  induction pieces generalizing l with
  | nil => cases h; rfl
  | cons piece pieces ih =>
    obtain ⟨k, hk, hrest, _⟩ := route_cons_found hfs h
    have hd := isDirectoryAt_of_route h
    have hm := ih hrest
    by_cases hs : isSilent piece = true
    · rw [route_stay (stepOfPiece_of_isSilent hs), if_pos hd] at hk
      cases hk
      rw [List.filterMap_cons, component?_eq_none_iff.mpr hs]
      exact hm
    · obtain ⟨hnil, hdot⟩ := not_or.mp (mt isSilent_iff.mpr hs)
      by_cases hdots : piece = [dot, dot]
      · subst hdots
        have hup : stepOfPiece [dot, dot] = .up := rfl
        rw [hup, route_up, if_pos hd] at hk
        cases hk
        exact hm
      · have hdown : stepOfPiece piece = .down piece := by simp [stepOfPiece, hnil, hdot, hdots]
        have hcomponent : component? piece = some (.normal piece) := by
          simp [component?, hs, hdots]
        rw [hdown] at hk
        rw [List.filterMap_cons, hcomponent, List.foldl_cons]
        rw [(eq_of_route_down hfs hk).1] at hm
        exact hm

/-- **The place that a path spells tells where it leads.** -/
theorem location_of_place (hfs : fs.IsPlainTree) {p : Path} {l : Location} (h : fs.Denotes p l) :
    l = p.place.foldl move fs.workingDirectory := by
  have hl := location_of_route hfs (h.route_eq hfs)
  rw [hl, place, List.foldl_append, origin]
  split <;> rfl

theorem foldl_move_normal (l : Location) (names : List Name) :
    (names.map Component.normal).foldl move l = l ++ names := by
  induction names generalizing l with
  | nil => simp
  | cons n names ih =>
    rw [List.map_cons, List.foldl_cons, ih]
    simp [move]

end FileSystem

/-! ## How what is found is spelled -/

namespace Glob

open Text ContractBindings.Path FileSystem

variable {fs : FileSystem}

/-- A path with a leading `.` only if it is the current directory. -/
def IsBare (p : Path) : Prop := p.pieces.head? = some [dot] → isCurrent p = true

theorem isBare_below {p : Path} {n : Bytes} (hp : p.bytes ≠ []) (hn : separator ∉ n) (h : IsBare p) :
    IsBare (below p n) := by
  intro hhead
  rw [isCurrent_below hp hn]
  cases hc : isCurrent p with
  | true =>
    simp only [below, hc, if_true] at hhead
    rw [pieces_mk hn] at hhead
    exact ⟨rfl, by simpa using hhead⟩
  | false =>
    exfalso
    simp only [below, hc, Bool.false_eq_true, if_false] at hhead
    obtain ⟨ps, hps, hpieces, hj⟩ := pieces_join hp
    obtain ⟨first, rest, rfl⟩ := List.exists_cons_of_ne_nil hps
    rw [hj n hn] at hhead
    have hsame : p.pieces.head? = some [dot] := by
      rcases hpieces with he | he <;> rw [he] <;> exact hhead
    rw [h hsame] at hc
    cases hc

theorem isBare_of_spelled? {p q : Path} {names : List Bytes} (hp : IsBare p)
    (hsep : ∀ n ∈ names, separator ∉ n) (h : spelled? fs p names = some q) : IsBare q := by
  induction names generalizing p with
  | nil =>
    rw [spelled?] at h
    split at h
    · cases h; exact hp
    · cases h
  | cons n names ih =>
    rw [spelled?] at h
    split at h
    · rename_i hgo
      rw [Bool.and_eq_true] at hgo
      obtain ⟨l, hl, _⟩ := isDirectory_iff.mp hgo.1
      exact ih (isBare_below hl.ne_nil (hsep n (by simp)) hp)
        (fun m hm => hsep m (List.mem_cons_of_mem _ hm)) h
    · cases h

theorem isBare_of_reached? {directory q : Path} (h : reached? fs directory = some q) : IsBare q := by
  refine isBare_of_spelled? ?_ ?_ h
  · split <;> intro <;> first | decide | contradiction
  · intro n hn
    obtain ⟨cs, hcs, rfl⟩ := List.mem_map.mp hn
    exact separator_not_mem_encodePiece (no_slash_of_mem_directoryPieces hcs)

theorem isBare_spell (hfs : fs.IsPlainTree) {p : Path} {l : Location} (hp : fs.Denotes p l)
    (h : IsBare p) {way : List Name} (he : fs.entryAt? (l ++ way) ≠ none) : IsBare (spell p way) := by
  induction way using List.reverseRecOn with
  | nil => simpa [spell] using h
  | append_singleton way n ih =>
    rw [← List.append_assoc] at he
    have hway := entryAt?_of_append hfs.isNested (k := [n]) he
    rw [spell_append_singleton]
    exact isBare_below (denotes_spell hfs hp hway).ne_nil (hfs.named _ n he).no_separator (ih hway)

/-- **What a search finds has no leading `.`**: its components are its place. -/
theorem components_spell (hfs : fs.IsPlainTree) {p : Path} {l : Location} (hp : fs.Denotes p l)
    (h : IsBare p) {way : List Name} (hne : way ≠ []) (he : fs.entryAt? (l ++ way) ≠ none) :
    (spell p way).components = p.place ++ way.map .normal := by
  have hplace := place_spell hfs hp he
  have hhead : (spell p way).pieces.head? ≠ some [dot] := by
    intro hhead
    have hnil := (isCurrent_iff.mp (isBare_spell hfs hp h he hhead)).2
    rw [hplace, List.append_eq_nil_iff, List.map_eq_nil_iff] at hnil
    exact hne hnil.2
  rw [components_eq, if_neg hhead, List.nil_append, hplace]

end Glob

/-! ## Sources that are left out -/

namespace Compiler

open Text ContractBindings.Path FileSystem Glob

variable {fs : FileSystem} {source artifacts p : Path} {l m : Location} {found : List Path}

/-- Whether a location lies in the directory that a path leads to. -/
def IsInside (fs : FileSystem) (directory : Path) (k : Location) : Prop :=
  ∃ m, fs.Denotes directory m ∧ fs.isDirectoryAt m = true ∧ m <+: k

/-- None of the paths leads into a directory. -/
def KeepsOut (fs : FileSystem) (directory : Path) (paths : List Path) : Prop :=
  ∀ q ∈ paths, ∀ k, fs.Denotes q k → ¬ IsInside fs directory k

/-- A source stands below `l`, and inside the directory at `m`. -/
def HasSourceInside (fs : FileSystem) (l m : Location) : Prop :=
  ∃ before n, HasExtension sourceExtension n ∧ (fs.bytesAt? (l ++ (before ++ [n]))).isSome ∧
    m <+: l ++ before

theorem HasSourceInside.isDirectoryAt (hfs : fs.IsPlainTree) (h : HasSourceInside fs l m) :
    fs.isDirectoryAt m = true := by
  obtain ⟨before, n, _, hb, rest, hrest⟩ := h
  have he := entryAt?_of_bytesAt? hb
  rw [← List.append_assoc, ← hrest, List.append_assoc] at he
  exact isDirectoryAt_of_append hfs.isNested (by simp) he

/-- A path to `m` is spelled as what is found below `l` is, if the search reaches `l` as `place`. -/
def IsSpelledBelow (directory : Path) (place : List Path.Component) (l m : Location) : Prop :=
  directory.components <+: place ++ (m.drop l.length).map .normal

/-- What contains a file is no longer than the way to the file. -/
theorem prefix_before_of_prefix {before : List Name} {n : Name} (hd : fs.isDirectoryAt m = true)
    (hb : (fs.bytesAt? (l ++ (before ++ [n]))).isSome) (h : m <+: l ++ (before ++ [n])) :
    m <+: l ++ before := by
  rw [← List.append_assoc] at hb h
  rcases List.prefix_concat_iff.mp h with rfl | h
  · rw [bytesAt?, isDirectoryAt_iff.mp hd] at hb
    cases hb
  · exact h

/-- If the path of a directory is a part of a path that is found in it, it is the part that leads to the
directory. -/
theorem isSpelledBelow_of_prefix (hfs : fs.IsPlainTree) (hp : fs.Denotes p l)
    (hm : fs.Denotes artifacts m) {way : List Name}
    (h : artifacts.components <+: p.place ++ way.map .normal) :
    IsSpelledBelow artifacts p.place l m := by
  have hcurrent : Path.Component.current ∉ artifacts.components := by
    intro hc
    rcases List.mem_append.mp (h.subset hc) with hc | hc
    · exact current_not_mem_place p hc
    · obtain ⟨_, _, hn⟩ := List.mem_map.mp hc
      cases hn
  have hplace : artifacts.components = artifacts.place := by
    rw [components_eq] at hcurrent ⊢
    split
    · rename_i hdot
      exact absurd (by simp [hdot]) hcurrent
    · rfl
  unfold IsSpelledBelow
  rw [hplace] at h ⊢
  rcases List.prefix_or_prefix_of_prefix h (List.prefix_append p.place _) with habove | hbelow
  · exact habove.trans (List.prefix_append _ _)
  · -- the rest of the path are names, which lead from `l` to `m`
    obtain ⟨rest, hrest⟩ := hbelow
    rw [← hrest, List.prefix_append_right_inj] at h
    obtain ⟨names, hnames, hmap⟩ := List.prefix_map_iff.mp h
    have hlocation : m = l ++ names := by
      rw [location_of_place hfs hm, ← hrest, List.foldl_append, ← location_of_place hfs hp, hmap,
        foldl_move_normal]
    rw [hlocation, List.drop_left, ← hrest, hmap]

/-- **A listing without what is spelled below a directory keeps out of the directory** if its path is
spelled as the search would spell it, and only then. -/
theorem keepsOut_iff (hfs : fs.IsPlainTree) (hbare : IsBare p)
    (h : IsListing fs sourceExtension p l found) (artifacts : Path) :
    KeepsOut fs artifacts (found.filter fun q => !q.startsWith artifacts) ↔
      ∀ m, fs.Denotes artifacts m → HasSourceInside fs l m → IsSpelledBelow artifacts p.place l m := by
  have hcomponents : ∀ before n, (fs.bytesAt? (l ++ (before ++ [n]))).isSome →
      (spell p (before ++ [n])).components = p.place ++ (before ++ [n]).map .normal :=
    fun before n hb => components_spell hfs h.denotes hbare (by simp) (entryAt?_of_bytesAt? hb)
  constructor
  · intro hkeeps m hm hsource
    have hd := hsource.isDirectoryAt hfs
    obtain ⟨before, n, hext, hb, hinside⟩ := hsource
    have hmem := (h.mem_iff _).mpr ⟨before, n, rfl, hext, hb⟩
    have hdenotes := denotes_spell hfs h.denotes (entryAt?_of_bytesAt? hb)
    have hleft : (spell p (before ++ [n])).startsWith artifacts = true := by
      by_contra hnot
      have hkept : spell p (before ++ [n]) ∈ found.filter fun q => !q.startsWith artifacts :=
        List.mem_filter.mpr ⟨hmem, by simpa using hnot⟩
      refine hkeeps _ hkept _ hdenotes ⟨m, hm, hd, hinside.trans ?_⟩
      rw [← List.append_assoc]
      exact List.prefix_append _ _
    have hprefix := List.isPrefixOf_iff_prefix.mp hleft
    rw [hcomponents before n hb] at hprefix
    exact isSpelledBelow_of_prefix hfs h.denotes hm hprefix
  · intro hspelled q hq k hk hinside
    obtain ⟨hmem, hnot⟩ := List.mem_filter.mp hq
    obtain ⟨m, hm, hd, hprefix⟩ := hinside
    obtain ⟨before, n, rfl, hext, hb⟩ := (h.mem_iff q).mp hmem
    have hk' := hk.unique (denotes_spell hfs h.denotes (entryAt?_of_bytesAt? hb))
    subst hk'
    have hbelow := hspelled m hm ⟨before, n, hext, hb, prefix_before_of_prefix hd hb hprefix⟩
    have hdrop : m.drop l.length <+: before ++ [n] := by
      have := hprefix.drop l.length
      rwa [List.drop_left] at this
    have hstarts : artifacts.components <+: (spell p (before ++ [n])).components := by
      rw [hcomponents before n hb]
      exact hbelow.trans ((List.prefix_append_right_inj _).mpr (hdrop.map _))
    rw [startsWith, List.isPrefixOf_iff_prefix.mpr hstarts] at hnot
    cases hnot

/-! ## Given paths -/

variable {text : String}

/-- What is found below a path that is text. -/
theorem exists_sources (hfs : fs.IsPlainTree) (h : fs.Denotes (Path.ofString text) l)
    (hd : fs.isDirectoryAt l = true) (artifacts : Path) :
    ∃ paths, sources fs (Path.ofString text) artifacts = .ok paths ∧
      (KeepsOut fs artifacts paths ↔ IsBlind (Path.ofString text) ∨
        ∀ m, fs.Denotes artifacts m → HasSourceInside fs l m →
          IsSpelledBelow artifacts (Path.ofString text).place l m) := by
  have hne : text ≠ "" := fun e => h.ne_nil (encode_eq_nil_iff.mpr e)
  by_cases hblind : IsBlind (Path.ofString text)
  · refine ⟨[], sources_of_isBlind hfs hne hblind artifacts, ?_⟩
    exact ⟨fun _ => Or.inl hblind, fun _ q hq => by cases hq⟩
  · obtain ⟨p, hp, hden, hplace⟩ := reached?_ofString hfs h hd hblind
    obtain ⟨found, hfound, hlisting⟩ := filesBelow_of_reached hfs isPlainExtension_source hp hden
    refine ⟨found.filter fun q => !q.startsWith artifacts, by rw [sources, hfound], ?_⟩
    rw [keepsOut_iff hfs (isBare_of_reached? hp) hlisting artifacts, hplace]
    simp [hblind]

/-- The path of a directory below another one is spelled like what is found there, unless it has a leading
`.`. -/
theorem isSpelledBelow_join {n : Name} (hne : source.bytes ≠ []) (hn : IsName n) :
    IsSpelledBelow (source.join ⟨n⟩) source.place l (l ++ [n]) ↔
      source.pieces.head? ≠ some [dot] := by
  have hplace := place_join hne hn.no_separator
  rw [component?_of_isName hn] at hplace
  have hhead : (source.join ⟨n⟩).pieces.head? = source.pieces.head? := by
    obtain ⟨ps, hps, hpieces, hj⟩ := pieces_join hne
    obtain ⟨first, rest, rfl⟩ := List.exists_cons_of_ne_nil hps
    rw [hj n hn.no_separator]
    rcases hpieces with he | he <;> rw [he] <;> rfl
  unfold IsSpelledBelow
  rw [components_eq, hhead, hplace, List.drop_left]
  split
  · rename_i hdot
    refine ⟨fun h => ?_, fun h => absurd hdot h⟩
    have hcurrent : Path.Component.current ∈ source.place ++ [n].map .normal :=
      h.subset (by simp)
    rcases List.mem_append.mp hcurrent with hc | hc
    · exact absurd hc (current_not_mem_place source)
    · rw [List.map_singleton, List.mem_singleton] at hc
      cases hc
  · rename_i hdot
    exact ⟨fun _ => hdot, fun _ => List.prefix_rfl⟩

/-- The path of a new name in a directory leads to the entry of that name, if to any. -/
theorem denotes_join_iff (hfs : fs.IsPlainTree) (h : fs.Denotes source l) (hd : fs.isDirectoryAt l = true)
    {n : Name} (hn : IsName n) :
    fs.Denotes (source.join ⟨n⟩) m ↔ m = l ++ [n] ∧ fs.entryAt? (l ++ [n]) ≠ none := by
  unfold Denotes
  rw [locate_join hfs h hn.no_separator hn.no_nul, stepOfPiece_of_isName hn]
  cases he : fs.entryAt? (l ++ [n]) with
  | none =>
    rw [route_down_none hd he]
    simp
  | some e =>
    rw [route_down_some hfs (by simp [he]), route_nil]
    simp [eq_comm]

/--
**When sources in the directory of the artifacts are left out.**  In a tree without links, whatever path
is given for that directory, they are if the path is spelled as the search spells what it finds.  The
default path is, unless the path of the source directory begins with `.`.
-/
theorem sources_keepOut (hfs : fs.IsPlainTree) (h : fs.Denotes (Path.ofString text) l)
    (hd : fs.isDirectoryAt l = true) :
    (∀ artifacts, ∃ paths, sources fs (Path.ofString text) artifacts = .ok paths ∧
      (KeepsOut fs artifacts paths ↔ IsBlind (Path.ofString text) ∨
        ∀ m, fs.Denotes artifacts m → HasSourceInside fs l m →
          IsSpelledBelow artifacts (Path.ofString text).place l m)) ∧
    ∃ paths,
      sources fs (Path.ofString text) (Config.ofSource (Path.ofString text)).artifacts = .ok paths ∧
      (KeepsOut fs (Config.ofSource (Path.ofString text)).artifacts paths ↔
        IsBlind (Path.ofString text) ∨ (Path.ofString text).pieces.head? ≠ some [dot] ∨
          ¬ HasSourceInside fs l (l ++ [Config.defaultArtifacts.bytes])) := by
  refine ⟨exists_sources hfs h hd, ?_⟩
  have hn : IsName Config.defaultArtifacts.bytes := by decide
  have hpath : (Config.ofSource (Path.ofString text)).artifacts =
      (Path.ofString text).join Config.defaultArtifacts := rfl
  rw [hpath]
  obtain ⟨paths, hpaths, hkeeps⟩ :=
    exists_sources hfs h hd ((Path.ofString text).join Config.defaultArtifacts)
  refine ⟨paths, hpaths, hkeeps.trans (or_congr_right ?_)⟩
  constructor
  · intro hall
    by_contra hnot
    obtain ⟨hhead, hsource⟩ := not_or.mp hnot
    have hdirectory := (not_not.mp hsource).isDirectoryAt hfs
    have hdenotes := (denotes_join_iff hfs h hd hn).mpr
      ⟨rfl, by simp [isDirectoryAt_iff.mp hdirectory]⟩
    exact hhead ((isSpelledBelow_join h.ne_nil hn).mp
      (hall _ hdenotes (not_not.mp hsource)))
  · intro hcases m hm hsource
    obtain ⟨rfl, _⟩ := (denotes_join_iff hfs h hd hn).mp hm
    rcases hcases with hhead | hnone
    · exact (isSpelledBelow_join h.ne_nil hn).mpr hhead
    · exact absurd hsource hnone

/-- A working directory `w` with a source in the default directory of the artifacts. -/
def staleFiles : FileSystem :=
  ⟨[([encode "w"], .directory), ([encode "w", encode "artifacts"], .directory),
    ([encode "w", encode "artifacts", encode "X.sol"], .file [])], [encode "w"]⟩

theorem isPlainTree_stale : staleFiles.IsPlainTree := by decide +kernel

/-- The working directory by its absolute path. -/
theorem sources_keepOut_stale :
    (∀ artifacts, ∃ paths, sources staleFiles (Path.ofString "/w") artifacts = .ok paths ∧
      (KeepsOut staleFiles artifacts paths ↔ IsBlind (Path.ofString "/w") ∨
        ∀ m, staleFiles.Denotes artifacts m → HasSourceInside staleFiles [encode "w"] m →
          IsSpelledBelow artifacts (Path.ofString "/w").place [encode "w"] m)) ∧
    ∃ paths,
      sources staleFiles (Path.ofString "/w") (Config.ofSource (Path.ofString "/w")).artifacts =
        .ok paths ∧
      (KeepsOut staleFiles (Config.ofSource (Path.ofString "/w")).artifacts paths ↔
        IsBlind (Path.ofString "/w") ∨ (Path.ofString "/w").pieces.head? ≠ some [dot] ∨
          ¬ HasSourceInside staleFiles [encode "w"] ([encode "w"] ++ [Config.defaultArtifacts.bytes])) :=
  sources_keepOut isPlainTree_stale (by cbv) (by decide)

/-- **Below `.` the default directory of the artifacts is not left out**: the search finds
`artifacts/X.sol`, and the components of `./artifacts` begin with `.`. -/
theorem not_keepsOut_current :
    ¬ ∀ (fs : FileSystem) (source : Path) (l : Location) (artifacts : Path) (paths : List Path),
      fs.IsTree → fs.Denotes source l → fs.isDirectoryAt l = true →
        sources fs source artifacts = .ok paths → KeepsOut fs artifacts paths := by
  intro h
  have hpaths : sources staleFiles Path.current (Config.ofSource Path.current).artifacts =
      .ok [Path.ofString "artifacts/X.sol"] := by cbv
  have hkeeps := h staleFiles Path.current _ _ _ isPlainTree_stale.toIsTree
    (denotes_current isPlainTree_stale) isPlainTree_stale.start hpaths
  refine hkeeps _ (List.mem_singleton.mpr rfl) [encode "w", encode "artifacts", encode "X.sol"] ?_ ?_
  · cbv
  · exact ⟨[encode "w", encode "artifacts"], by cbv, by decide, [encode "X.sol"], rfl⟩

end Compiler

end ContractBindings
