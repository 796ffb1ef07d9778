import ContractBindings.Proofs.FileSystem.Arrival
import ContractBindings.Proofs.FileSystem.Effects

/-!
# Names that come about

Whatever is made or written through a path gets a name that stands in a path, so it has no slash and is no
special one.

* `StepNamed.of_arrives`, `StepNamed.of_vacant`: a walk from such names leads to such names;
* `HasStepNames.ensureDirectory`, `HasStepNames.written`: so the names in a tree stay such names.
-/

set_option autoImplicit false

namespace ContractBindings.FileSystem

open ContractBindings.Path

variable {fs fs' : FileSystem} {k k' : Nat} {l m : Location} {n : Name} {xs : List Step} {follow : Bool}
  {p : Path}

/-- A name that a step leads to. -/
structure IsStepName (n : Name) : Prop where
  no_separator : separator ∉ n
  step : stepOfPiece n = .down n

/-- A location that steps lead to. -/
def StepNamed (l : Location) : Prop := ∀ n ∈ l, IsStepName n

/-- Steps that lead to such names only. -/
def AreSteps (xs : List Step) : Prop := ∀ n, .down n ∈ xs → IsStepName n

theorem isStepName_of_isName (h : IsName n) : IsStepName n := ⟨h.no_separator, stepOfPiece_of_isName h⟩

/-- A step name without a NUL byte can name an entry. -/
theorem IsStepName.isName (h : IsStepName n) (h0 : (0 : UInt8) ∉ n) : IsName n := by
  have hother : ∀ other : Name, stepOfPiece other ≠ .down other → n ≠ other := by
    rintro _ hstep rfl
    exact hstep h.step
  exact ⟨hother _ (by decide), hother _ (by decide), hother _ (by decide), h.no_separator, h0⟩

theorem areSteps_steps (p : Path) : AreSteps p.steps := by
  intro n hn
  obtain ⟨piece, hpiece, hstep⟩ := List.mem_map.mp hn
  have hsep := no_separator_of_mem_pieces hpiece
  have hsame : piece = n := by
    unfold stepOfPiece at hstep
    split at hstep
    · cases hstep
    · split at hstep
      · cases hstep
      · split at hstep
        · cases hstep
        · exact Step.down.inj hstep
  rw [hsame] at hstep hsep
  exact ⟨hsep, hstep⟩

theorem AreSteps.tail {step : Step} (h : AreSteps (step :: xs)) : AreSteps xs :=
  fun n hn => h n (List.mem_cons_of_mem _ hn)

theorem AreSteps.append {ys : List Step} (h : AreSteps xs) (h' : AreSteps ys) : AreSteps (xs ++ ys) :=
  fun n hn => (List.mem_append.mp hn).elim (h n) (h' n)

namespace StepNamed

theorem nil : StepNamed [] := fun _ h => by cases h

theorem dropLast (h : StepNamed l) : StepNamed l.dropLast := fun n hn => h n (List.mem_of_mem_dropLast hn)

theorem concat (h : StepNamed l) (hn : IsStepName n) : StepNamed (l ++ [n]) := by
  intro x hx
  rcases List.mem_append.mp hx with hx | hx
  · exact h x hx
  · rw [List.mem_singleton.mp hx]
    exact hn

/-- Where a path starts, also that of a link. -/
theorem origin (h : StepNamed l) (t : Path) : StepNamed (if t.isAbsolute then [] else l) := by
  split
  · exact nil
  · exact h

/-- **A walk along steps arrives at step names.** -/
theorem of_arrives (h : fs.Arrives k l xs k' m) (hl : StepNamed l) (hxs : AreSteps xs) : StepNamed m := by
  induction h with
  | nil => exact hl
  | stay _ _ _ ih => exact ih hl hxs.tail
  | up _ _ ih => exact ih hl.dropLast hxs.tail
  | down _ _ _ ih => exact ih (hl.concat (hxs _ (by simp))) hxs.tail
  | link _ _ _ ih => exact ih (hl.origin _) ((areSteps_steps _).append hxs.tail)

/-- **And so is a free place** that a walk ends at. -/
theorem of_vacant {asDirectory : Bool} (h : fs.walk follow k l xs = .ok (.vacant m asDirectory))
    (hl : StepNamed l) (hxs : AreSteps xs) : StepNamed m := by
  have htrail := trail_of_walk h
  clear h
  generalize hspot : Spot.vacant m asDirectory = spot at htrail
  induction htrail with
  | nil => cases hspot
  | stay _ _ _ ih => exact ih hl hxs.tail hspot
  | up _ _ ih => exact ih hl.dropLast hxs.tail hspot
  | down _ _ _ ih => exact ih (hl.concat (hxs _ (by simp))) hxs.tail hspot
  | link _ _ _ _ ih => exact ih (hl.origin _) ((areSteps_steps _).append hxs.tail) hspot
  | atLink => cases hspot
  | vacant =>
    cases hspot
    exact hl.concat (hxs _ (by simp))

end StepNamed

/-! ## Trees -/

/-- A tree in which every entry has a name that a step leads to. -/
structure HasStepNames (fs : FileSystem) : Prop where
  entry : ∀ l, fs.entryAt? l ≠ none → StepNamed l
  start : StepNamed fs.workingDirectory

/-- All names on the way to an entry of a tree can name an entry. -/
theorem IsTree.isName_of_mem (hfs : fs.IsTree) (he : fs.entryAt? l ≠ none) (hn : n ∈ l) : IsName n := by
  obtain ⟨before, after, rfl⟩ := List.append_of_mem hn
  rw [List.append_cons] at he
  exact hfs.named before n (entryAt?_of_append hfs.isNested he)

theorem IsTree.hasStepNames (hfs : fs.IsTree) : fs.HasStepNames := by
  have hentry : ∀ l, fs.entryAt? l ≠ none → StepNamed l :=
    fun _ he _ hn => isStepName_of_isName (hfs.isName_of_mem he hn)
  exact ⟨hentry, hentry _ (by simp [isDirectoryAt_iff.mp hfs.start])⟩

theorem stepNamed_of_denotes (hstart : StepNamed fs.workingDirectory) (hp : fs.Denotes p l) :
    StepNamed l := by
  obtain ⟨_, harrives⟩ := exists_arrives (walk_of_locate hp)
  exact .of_arrives harrives (hstart.origin p) (areSteps_steps p)

namespace HasStepNames

theorem set_directory (h : fs.HasStepNames) (hl : StepNamed l) (hne : l ≠ []) :
    (fs.set l .directory).HasStepNames := by
  refine ⟨fun m hm => ?_, h.start⟩
  rw [entryAt?_set hne] at hm
  split at hm
  · rename_i hml
    rw [hml]
    exact hl
  · exact h.entry m hm

theorem createDirectory (h : fs.HasStepNames) (hmade : fs.createDirectory p = .ok fs') :
    fs'.HasStepNames := by
  unfold FileSystem.createDirectory at hmade
  simp only at hmade
  split at hmade
  · cases hmade
  · split at hmade
    · cases hmade
    · cases hmade
    · rename_i l _ hlocate
      cases hmade
      refine h.set_directory ?_ (isFree_of_locate hlocate).ne_nil
      exact .of_vacant (walk_of_locate hlocate) (h.start.origin _) (areSteps_steps _)

/-- **Making directories** keeps the names of a tree such names. -/
theorem ensureDirectory (h : fs.HasStepNames) (p : Path) : (fs.ensureDirectory p).1.HasStepNames := by
  have hcreates := creates_ensureDirectory fs p
  generalize (fs.ensureDirectory p).1 = made at hcreates ⊢
  induction hcreates with
  | refl => exact h
  | tail _ hstep ih =>
    obtain ⟨_, hmade⟩ := hstep
    exact ih.createDirectory hmade

/-- **Writing files** keeps the names of a tree such names. -/
theorem written {α : Type} {path : α → Path} {bytes : α → Text.Bytes} {written : List α}
    (h : fs.HasStepNames) (hwritten : Written path bytes fs fs' written) : fs'.HasStepNames := by
  have hstart : StepNamed fs'.workingDirectory := by
    rw [hwritten.onlyFiles.workingDirectory]
    exact h.start
  refine ⟨fun l hl => ?_, hstart⟩
  rw [hwritten.entry l] at hl
  cases hlast : lastTo? path fs' written l with
  | none =>
    rw [hlast] at hl
    exact h.entry l hl
  | some x =>
    -- a file that is new stands where a path leads
    exact stepNamed_of_denotes hstart (lastTo?_eq_some hlast).2

end HasStepNames

end ContractBindings.FileSystem
