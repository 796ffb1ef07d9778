import Mathlib
import ContractBindings.Generate
import ContractBindings.Proofs.Glob.Listing

/-!
# Which artifacts are found

In a tree without links the artifacts of a directory are the files below it whose names end with the
extension behind a dot, at any depth, each once and in order; whatever characters the path of the directory
and the names of other directories have.

* `ListsFiles`: a list of paths is that of the files with an extension below a directory;
* `listsFiles_of_isListing`: what is found in a directory that the search gets to is;
* `findArtifacts_listsFiles`: the search gets to every directory whose path is text, unless the path is one
  like `./`; there nothing is found;
* `not_listsFiles_blind`: so the file in such a directory is missed.
-/

set_option autoImplicit false

namespace ContractBindings.Generate

open Text ContractBindings.Path FileSystem Glob

variable {fs : FileSystem} {directory p : Path} {l : Location} {extension text : String} {found : List Path}

/-- Along these names below a location there is a file, and the last name has the extension. -/
structure IsArtifactBelow (fs : FileSystem) (extension : String) (l : Location) (way : List Name) : Prop where
  file : (fs.bytesAt? (l ++ way)).isSome
  name : ∃ n, way.getLast? = some n ∧ HasExtension extension n

/-- The paths are those of the files with the extension below a directory. -/
structure ListsFiles (fs : FileSystem) (directory : Path) (l : Location) (extension : String)
    (found : List Path) : Prop where
  /-- They are in strict order. -/
  ordered : found.Pairwise fun q r => q.lt r = true
  /-- Each is the path of such a file, spelled as the path of the directory and the names behind it. -/
  sound : ∀ q ∈ found, ∃ way, IsArtifactBelow fs extension l way ∧ fs.Denotes q (l ++ way) ∧
    q.place = directory.place ++ way.map .normal
  /-- Each such file has one of them, and only one. -/
  complete : ∀ way, IsArtifactBelow fs extension l way → ∃! q, q ∈ found ∧ fs.Denotes q (l ++ way)

theorem isArtifactBelow_concat {way : List Name} {n : Name} :
    IsArtifactBelow fs extension l (way ++ [n]) ↔
      HasExtension extension n ∧ (fs.bytesAt? (l ++ (way ++ [n]))).isSome := by
  constructor
  · rintro ⟨hfile, m, hlast, hname⟩
    rw [List.getLast?_concat, Option.some.injEq] at hlast
    exact ⟨hlast ▸ hname, hfile⟩
  · exact fun h => ⟨h.2, n, List.getLast?_concat, h.1⟩

/-- **What is found in a directory are its files**, each by one path. -/
theorem listsFiles_of_isListing (hfs : fs.IsPlainTree) (hplace : p.place = directory.place)
    (h : IsListing fs extension p l found) : ListsFiles fs directory l extension found where
  ordered := h.ordered.imp lt_iff.mpr
  sound q hq := by
    obtain ⟨before, n, rfl, hname, hfile⟩ := (h.mem_iff q).mp hq
    have he := entryAt?_of_bytesAt? hfile
    refine ⟨before ++ [n], isArtifactBelow_concat.mpr ⟨hname, hfile⟩, denotes_spell hfs h.denotes he, ?_⟩
    rw [place_spell hfs h.denotes he, hplace]
  complete way hway := by
    obtain ⟨n, hlast, _⟩ := hway.name
    obtain ⟨before, rfl⟩ := List.getLast?_eq_some_iff.mp hlast
    obtain ⟨hname, hfile⟩ := isArtifactBelow_concat.mp hway
    have hmem := (h.mem_iff _).mpr ⟨before, n, rfl, hname, hfile⟩
    have hden := denotes_spell hfs h.denotes (entryAt?_of_bytesAt? hfile)
    exact ⟨_, ⟨hmem, hden⟩, fun q hq => h.eq_of_denotes hfs hq.1 hmem hq.2 hden⟩

/-- Without such files there is nothing to find. -/
theorem listsFiles_nil_iff :
    ListsFiles fs directory l extension [] ↔ ∀ way, ¬ IsArtifactBelow fs extension l way := by
  constructor
  · intro h way hway
    obtain ⟨q, ⟨hq, _⟩, _⟩ := h.complete way hway
    cases hq
  · exact fun h => ⟨List.Pairwise.nil, by simp, fun way hway => absurd hway (h way)⟩

/--
**Which artifacts are found** in a tree without links, below a directory whose path is text, for an
extension without wildcards and slashes: the files with the extension, unless the search does not get to
the directory.
-/
theorem findArtifacts_listsFiles (hfs : fs.IsPlainTree) (hextension : IsPlainExtension extension)
    (h : fs.Denotes (Path.ofString text) l) (hd : fs.isDirectoryAt l = true) :
    ∃ found, findArtifacts fs (Path.ofString text) extension = .ok found ∧
      (ListsFiles fs (Path.ofString text) l extension found ↔
        IsBlind (Path.ofString text) → ∀ way, ¬ IsArtifactBelow fs extension l way) ∧
      (IsBlind (Path.ofString text) → found = []) := by
  by_cases hblind : IsBlind (Path.ofString text)
  · have hne : text ≠ "" := fun e => h.ne_nil (encode_eq_nil_iff.mpr e)
    have hnone : reached? fs (Path.ofString text) = none := reached?_of_isBlind hne hblind
    refine ⟨[], filesBelow_of_not_reached hfs hextension hnone, ?_, fun _ => rfl⟩
    rw [listsFiles_nil_iff]
    exact ⟨fun hall _ => hall, fun hall => hall hblind⟩
  · obtain ⟨p, hreached, hp, hplace⟩ := reached?_ofString hfs h hd hblind
    obtain ⟨found, hfound, hlisting⟩ := filesBelow_of_reached hfs hextension hreached hp
    refine ⟨found, hfound, ?_, fun hnot => absurd hnot hblind⟩
    exact ⟨fun _ hnot => absurd hnot hblind, fun _ => listsFiles_of_isListing hfs hplace hlisting⟩

/-- A directory `b[1]` in which a file stands in a directory that is named like one, and both have the
extension only. -/
def nestedFiles : FileSystem :=
  ⟨[([encode "w"], .directory), ([encode "w", encode "b[1]"], .directory),
    ([encode "w", encode "b[1]", encode ".json"], .directory),
    ([encode "w", encode "b[1]", encode ".json", encode ".json"], .file []),
    ([encode "w", encode "b[1]", encode "T.x.json"], .file []),
    ([encode "w", encode "b[1]", encode "json"], .file [])], [encode "w"]⟩

/-- The sample: a path with characters that have a meaning in patterns. -/
theorem findArtifacts_listsFiles_nested :
    ∃ found, findArtifacts nestedFiles (Path.ofString "b[1]") "json" = .ok found ∧
      (ListsFiles nestedFiles (Path.ofString "b[1]") [encode "w", encode "b[1]"] "json" found ↔
        IsBlind (Path.ofString "b[1]") →
          ∀ way, ¬ IsArtifactBelow nestedFiles "json" [encode "w", encode "b[1]"] way) ∧
      (IsBlind (Path.ofString "b[1]") → found = []) :=
  findArtifacts_listsFiles (by decide +kernel) (by decide) (by cbv) (by decide)

/-- A working directory with an artifact. -/
def blindFiles : FileSystem :=
  ⟨[([encode "w"], .directory), ([encode "w", encode "a.json"], .file [])], [encode "w"]⟩

/-- **In `./` an artifact is missed**: the pattern `.//**/*.json` asks for a directory without a name. -/
theorem not_listsFiles_blind :
    ¬ ∀ (fs : FileSystem) (text extension : String) (l : Location) (found : List Path), fs.IsPlainTree →
      fs.Denotes (Path.ofString text) l → fs.isDirectoryAt l = true → IsPlainExtension extension →
        findArtifacts fs (Path.ofString text) extension = .ok found →
          ListsFiles fs (Path.ofString text) l extension found := by
  intro h
  have hplain : blindFiles.IsPlainTree := by decide +kernel
  have hfound : findArtifacts blindFiles (Path.ofString "./") "json" = .ok [] := by cbv
  have hlists := h blindFiles "./" "json" [encode "w"] [] hplain (by cbv) (by decide) (by decide) hfound
  refine listsFiles_nil_iff.mp hlists [encode "a.json"] ⟨by decide, encode "a.json", rfl, "a", ?_⟩
  decide

end ContractBindings.Generate
