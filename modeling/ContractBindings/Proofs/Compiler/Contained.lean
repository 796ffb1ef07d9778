import ContractBindings.Proofs.Compiler.Failure
import ContractBindings.Proofs.FileSystem.Arrival

/-!
# Where a compiler's output goes

The name of an artifact is made from the name of a contract, which is whatever stands behind the last colon of
a key, and it is joined to the path of the directory as it is.

* `exists_contract_of_changed`: a file that is not as before holds an artifact, and the path of this artifact
  leads to it;
* `exists_directory_of_denotes`: if the name has no slash, that is the entry of this name in the directory,
  unless a link stands there;
* `compile_contained`: so nothing else changes, whether the compilation succeeds or not;
* `not_staysInside_sample`: a name such as `../T`, or a link, leads out of the directory.
-/

set_option autoImplicit false

namespace ContractBindings.Compiler

open Text ContractBindings.Path FileSystem

variable {s : Session} {fs before made after : FileSystem} {program source artifacts : Path}
  {stdout name : String} {l d : Location} {written : List CompiledContract}

/-! ## The place of an artifact -/

/-- The directory of the artifacts; without a path it is the one where relative paths start. -/
structure IsOutputDirectory (fs : FileSystem) (artifacts : Path) (d : Location) : Prop where
  directory : fs.isDirectoryAt d = true
  place : if artifacts.isEmpty then d = fs.workingDirectory else fs.Denotes artifacts d

theorem stepOfPiece_artifactName (name : String) :
    stepOfPiece (artifactName name) = .down (artifactName name) := by
  have hlong : ∀ other : String, other.toList.length < 5 → artifactName name ≠ encode other :=
    fun _ hlength he => ne_of_length_lt hlength (encode_injective he)
  have hempty : artifactName name ≠ [] := hlong "" (by decide)
  have hdot : artifactName name ≠ [dot] := hlong "." (by decide)
  have hdots : artifactName name ≠ [dot, dot] := hlong ".." (by decide)
  simp [stepOfPiece, hempty, hdot, hdots]

theorem separator_not_mem_artifactName (h : '/' ∉ name.toList) : separator ∉ artifactName name := by
  rw [artifactName, mem_encode_iff (by decide), String.toList_append, List.mem_append, not_or]
  exact ⟨h, by decide⟩

/-- **An artifact whose name has no slash is in the directory**, unless a link of its name stands there. -/
theorem exists_directory_of_denotes (hname : '/' ∉ name.toList)
    (h : fs.Denotes (artifactPath artifacts name) l) :
    ∃ d, IsOutputDirectory fs artifacts d ∧
      (l = d ++ [artifactName name] ∨
        ∃ t, fs.entryAt? (d ++ [artifactName name]) = some (.link t)) := by
  have hsep := separator_not_mem_artifactName hname
  have hpath : artifactPath artifacts name = artifacts.join ⟨artifactName name⟩ := rfl
  rw [hpath] at h
  obtain ⟨_, d, hopens, hd, _, harrives⟩ := exists_opens_of_join hsep h
  rw [stepOfPiece_artifactName] at harrives
  refine ⟨d, ⟨hd, ?_⟩, harrives.eq_or_link⟩
  unfold Opens at hopens
  split at hopens
  · rename_i hempty
    rw [if_pos hempty]
    exact hopens.2
  · rename_i hne
    rw [if_neg hne]
    exact hopens.denotes hd

/-! ## What changes -/

/-- Whatever was used of an output was written for contracts of this output. -/
theorem writeOutput_written (hfs : s.files.IsNested) (artifacts : Path) (stdout : String) :
    ∃ written, (∀ c ∈ written, ∃ contracts, contractsOf stdout = .ok contracts ∧ c ∈ contracts) ∧
      WrittenArtifacts artifacts (s.files.ensureDirectory artifacts).1
        (writeOutput artifacts s stdout).1.files written := by
  rcases writeOutput_cases hfs artifacts stdout with
    ⟨_, contracts, hread, hwritten⟩ | ⟨_, written, _, hstops, hwritten⟩
  · exact ⟨contracts, fun c hc => ⟨contracts, hread, hc⟩, hwritten⟩
  · refine ⟨written, fun c hc => ?_, hwritten⟩
    cases hstops with
    | directory _ => cases hc
    | output _ _ => cases hc
    | artifact _ hread _ => exact ⟨_, hread, List.mem_append_left _ hc⟩

/-- **A file that is not as before holds an artifact**, and the path of this artifact leads to it. -/
theorem exists_contract_of_changed (hmade : MakesDirectories before made)
    (hwritten : WrittenArtifacts artifacts made after written)
    (hchanged : after.bytesAt? l ≠ before.bytesAt? l) :
    ∃ c ∈ written, after.Denotes (artifactPath artifacts c.name) l ∧
      after.bytesAt? l = some (artifactBytes c) := by
  have hentry := hwritten.entry l
  cases hlast : lastTo? (fun c => artifactPath artifacts c.name) after written l with
  | none =>
    rw [hlast, Option.elim_none] at hentry
    exfalso
    rcases hmade.entry l with hsame | ⟨hnone, hdirectory⟩
    · exact hchanged (by rw [bytesAt?, bytesAt?, hentry, hsame])
    · exact hchanged (by rw [bytesAt?, bytesAt?, hentry, hdirectory, hnone])
  | some c =>
    rw [hlast, Option.elim_some] at hentry
    obtain ⟨hc, hdenotes⟩ := lastTo?_eq_some hlast
    exact ⟨c, hc, hdenotes, by rw [bytesAt?, hentry]⟩

/-- No link comes about. -/
theorem link_before (hmade : MakesDirectories before made)
    (hwritten : WrittenArtifacts artifacts made after written) {t : Path}
    (h : after.entryAt? l = some (.link t)) : before.entryAt? l = some (.link t) := by
  rw [hwritten.entry l] at h
  cases hlast : lastTo? (fun c => artifactPath artifacts c.name) after written l with
  | some c => rw [hlast] at h; cases h
  | none =>
    rw [hlast, Option.elim_none] at h
    rcases hmade.entry l with hsame | ⟨_, hdirectory⟩
    · rw [← hsame, h]
    · rw [hdirectory] at h
      cases h

/-- The place of an artifact: an entry of the directory, unless the artifact's name was that of a link. -/
structure IsPlaceOf (artifacts : Path) (before after : FileSystem) (name : String) (l : Location) :
    Prop where
  denotes : after.Denotes (artifactPath artifacts name) l
  inside : ∃ d, IsOutputDirectory after artifacts d ∧
    (l = d ++ [artifactName name] ∨ ∃ t, before.entryAt? (d ++ [artifactName name]) = some (.link t))

/-- A location holds the artifact of a contract, and is the place of it if the name has no slash. -/
structure HoldsArtifact (artifacts : Path) (before after : FileSystem) (c : CompiledContract)
    (l : Location) : Prop where
  bytes : after.bytesAt? l = some (artifactBytes c)
  place : '/' ∉ c.name.toList → IsPlaceOf artifacts before after c.name l

/--
**What a compilation changes**, in any tree, for any compiler and whether it succeeds or not: a file that is
not as before holds the artifact of a contract in the compiler's output.  It is an entry of the directory of
the artifacts, if the contract's name has no slash and no link of the artifact's name stood there.
-/
theorem compile_contained (hfs : s.files.IsNested)
    (hchanged : (compile (.solc program) source artifacts s).1.files.bytesAt? l ≠ s.files.bytesAt? l) :
    ∃ stdout contracts, usedOutput? program source artifacts s = some stdout ∧
      contractsOf stdout = .ok contracts ∧ ∃ c ∈ contracts,
        HoldsArtifact artifacts s.files (compile (.solc program) source artifacts s).1.files c l := by
  rw [compile] at hchanged ⊢
  rcases compileWith_cases program source artifacts s with ⟨_, hsame⟩ | ⟨stdout, s₁, hused, hfiles, hrun⟩
  · rw [hsame] at hchanged
    exact absurd rfl hchanged
  · rw [hrun] at hchanged ⊢
    obtain ⟨written, hread, hwritten⟩ := writeOutput_written (s := s₁) (hfiles ▸ hfs) artifacts stdout
    rw [hfiles] at hwritten
    have hmade := makesDirectories_ensureDirectory s.files artifacts
    obtain ⟨c, hc, hdenotes, hbytes⟩ := exists_contract_of_changed hmade hwritten hchanged
    obtain ⟨contracts, hcontracts, hmem⟩ := hread c hc
    refine ⟨stdout, contracts, hused, hcontracts, c, hmem, hbytes, fun hname => ⟨hdenotes, ?_⟩⟩
    obtain ⟨d, hd, hplace⟩ := exists_directory_of_denotes hname hdenotes
    refine ⟨d, hd, hplace.imp_right ?_⟩
    rintro ⟨t, ht⟩
    exact ⟨t, link_before hmade hwritten ht⟩

/-- A compiler that reports a contract with this name and nothing more. -/
def reportingSession (name : String) (others : List (Location × Entry)) : Session :=
  compilerSession ("\x7b\"contracts\":\x7b\"T.sol:" ++ name ++ "\":\x7b\"abi\":[]\x7d\x7d\x7d") others

/-- A contract whose name leads out of the directory. -/
def escapingSession : Session := reportingSession "../T" []

/-- A directory with a link in the place of an artifact. -/
def linkedArtifactSession : Session :=
  reportingSession "T"
    [([encode "w", encode "out"], .directory),
      ([encode "w", encode "out", encode "T.json"], .link (Path.ofString "../U.json"))]

/-- The files after a compilation into `out`. -/
def filesAfter (s : Session) : FileSystem :=
  (compile (.solc (Path.ofString "./solc")) Path.current (Path.ofString "out") s).1.files

/-- How long the file at a location is after a compilation, and where `out` leads to then. -/
def lengthAndDirectory (s : Session) (l : Location) : Option Nat × Except IoError Spot :=
  (((filesAfter s).bytesAt? l).map List.length, (filesAfter s).locate true (Path.ofString "out"))

theorem lengthAndDirectory_escaping :
    lengthAndDirectory escapingSession [encode "w", encode "T.json"] =
      (some 86, .ok (.found [encode "w", encode "out"])) := by cbv

theorem lengthAndDirectory_linked :
    lengthAndDirectory linkedArtifactSession [encode "w", encode "U.json"] =
      (some 83, .ok (.found [encode "w", encode "out"])) := by cbv

/-- A file that was not there before is not as before. -/
theorem changed_of_lengthAndDirectory {n : Nat} {spot : Except IoError Spot}
    (h : lengthAndDirectory s l = (some n, spot)) (hnone : s.files.bytesAt? l = none) :
    (filesAfter s).bytesAt? l ≠ s.files.bytesAt? l := by
  intro hsame
  have hlength := congrArg Prod.fst h
  rw [lengthAndDirectory, hsame, hnone] at hlength
  cases hlength

/-- The artifact that is written through a link: it stands where the link leads to. -/
theorem compile_contained_linked :
    (filesAfter linkedArtifactSession).bytesAt? [encode "w", encode "U.json"] ≠
        linkedArtifactSession.files.bytesAt? [encode "w", encode "U.json"] ∧
      ∃ stdout contracts,
        usedOutput? (Path.ofString "./solc") Path.current (Path.ofString "out") linkedArtifactSession =
          some stdout ∧
        contractsOf stdout = .ok contracts ∧ ∃ c ∈ contracts,
          HoldsArtifact (Path.ofString "out") linkedArtifactSession.files (filesAfter linkedArtifactSession) c
            [encode "w", encode "U.json"] :=
  have htree : linkedArtifactSession.files.IsTree := by decide +kernel
  have hchanged := changed_of_lengthAndDirectory lengthAndDirectory_linked (by cbv)
  ⟨hchanged, compile_contained htree.isNested hchanged⟩

/-- A compilation that changes nothing but entries of the directory of the artifacts. -/
def StaysInside (program source artifacts : Path) (s : Session) : Prop :=
  ∀ l, (compile (.solc program) source artifacts s).1.files.bytesAt? l ≠ s.files.bytesAt? l →
    ∃ d n, (compile (.solc program) source artifacts s).1.files.Denotes artifacts d ∧ l = d ++ [n]

/-- What is new beside `out` is not in it. -/
theorem not_staysInside_of_beside {n : Nat} {w out file : Name}
    (h : lengthAndDirectory s [w, file] = (some n, .ok (.found [w, out])))
    (hnone : s.files.bytesAt? [w, file] = none) :
    ¬ StaysInside (Path.ofString "./solc") Path.current (Path.ofString "out") s := by
  intro hinside
  obtain ⟨d, m, hd, hplace⟩ := hinside [w, file] (changed_of_lengthAndDirectory h hnone)
  have hdirectory : (filesAfter s).Denotes (Path.ofString "out") [w, out] := congrArg Prod.snd h
  have hsame := hd.unique hdirectory
  subst hsame
  cases hplace

/-- **Two compilations that do not stay inside**: the name of a contract leads out of the directory, or a link
in it does. -/
theorem not_staysInside_sample :
    (escapingSession.files.IsPlainTree ∧
      ¬ StaysInside (Path.ofString "./solc") Path.current (Path.ofString "out") escapingSession) ∧
    (linkedArtifactSession.files.IsTree ∧
      ¬ StaysInside (Path.ofString "./solc") Path.current (Path.ofString "out") linkedArtifactSession) :=
  ⟨⟨by decide +kernel, not_staysInside_of_beside lengthAndDirectory_escaping (by cbv)⟩,
    by decide +kernel, not_staysInside_of_beside lengthAndDirectory_linked (by cbv)⟩

end ContractBindings.Compiler
