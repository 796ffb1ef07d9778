import Mathlib.Logic.Relation
import ContractBindings.Proofs.FileSystem.Links

/-!
# What operations leave behind

Directories that are made and files that are written through paths, one after another, in a tree that may
hold links.  Either may end early, so nothing here asks whether all of it was done.

* `makesDirectories_ensureDirectory`: making a directory puts directories in free places and changes
  nothing else, also when it fails halfway;
* `exists_new_of_ensureDirectory`: if it succeeds, a directory is new, unless the path was one before;
* `Written.entry`: after files were written through paths, every place holds the last one whose path
  leads there.
-/

set_option autoImplicit false

namespace ContractBindings.FileSystem

open Text ContractBindings.Path

variable {fs fs' fs'' : FileSystem} {l m : Location} {steps : List Step} {follow : Bool} {p : Path}

/-! ## Free places -/

/-- A place in a directory where nothing stands. -/
def IsFree (fs : FileSystem) (l : Location) : Prop :=
  ∃ d n, l = d ++ [n] ∧ fs.isDirectoryAt d = true ∧ fs.entryAt? l = none

/-- A walk that ends at no entry ends at a free place. -/
theorem Trail.isFree {k : Nat} {asDirectory : Bool} (h : fs.Trail follow k l steps (.vacant m asDirectory)) :
    fs.IsFree m := by
  generalize hspot : Spot.vacant m asDirectory = spot at h
  induction h with
  | nil => cases hspot
  | stay _ _ _ ih => exact ih hspot
  | up _ _ ih => exact ih hspot
  | down _ _ _ ih => exact ih hspot
  | link _ _ _ _ ih => exact ih hspot
  | atLink => cases hspot
  | @vacant _ l n _ hl hnone _ =>
    cases hspot
    exact ⟨l, n, rfl, hl, hnone⟩

/-- **A path that leads to no entry, but could, leads to a free place.** -/
theorem isFree_of_locate {asDirectory : Bool} (h : fs.locate follow p = .ok (.vacant m asDirectory)) :
    fs.IsFree m := (trail_of_walk (walk_of_locate h)).isFree

/-! ## Making directories -/

/-- A directory is new in a free place. -/
def MakesDirectory (fs fs' : FileSystem) : Prop := ∃ l, fs.IsFree l ∧ fs' = fs.set l .directory

/-- Directories are made in free places, one after another. -/
def MakesDirectories : FileSystem → FileSystem → Prop := Relation.ReflTransGen MakesDirectory

theorem IsFree.ne_nil (h : fs.IsFree l) : l ≠ [] := by
  obtain ⟨d, n, rfl, _⟩ := h
  simp

theorem IsFree.entryAt?_eq_none (h : fs.IsFree l) : fs.entryAt? l = none := by
  obtain ⟨_, _, _, _, hnone⟩ := h
  exact hnone

theorem IsFree.isNested_set (hfs : fs.IsNested) (h : fs.IsFree l) :
    (fs.set l .directory).IsNested := by
  have hdirectory : ∀ k, fs.isDirectoryAt k = true → (fs.set l .directory).isDirectoryAt k = true := by
    intro k hk
    rw [isDirectoryAt_iff] at hk ⊢
    rw [entryAt?_set h.ne_nil]
    split
    · rfl
    · exact hk
  refine ⟨fun k n he => ?_, hdirectory _ hfs.start⟩
  rw [entryAt?_set h.ne_nil] at he
  split at he
  · rename_i hk
    obtain ⟨d, m, hl, hd, _⟩ := h
    have hsame : k = d := (List.append_inj' (hk.trans hl) rfl).1
    exact hdirectory k (hsame ▸ hd)
  · exact hdirectory k (hfs.above k n he)

namespace MakesDirectories

theorem isNested (h : MakesDirectories fs fs') (hfs : fs.IsNested) : fs'.IsNested := by
  induction h with
  | refl => exact hfs
  | tail _ hstep ih =>
    obtain ⟨l, hl, rfl⟩ := hstep
    exact hl.isNested_set ih

/-- **Every entry stays as it is, and what is new are directories.** -/
theorem entry (h : MakesDirectories fs fs') (l : Location) :
    fs'.entryAt? l = fs.entryAt? l ∨ fs.entryAt? l = none ∧ fs'.entryAt? l = some .directory := by
  induction h with
  | refl => exact Or.inl rfl
  | @tail fs₁ fs₂ _ hstep ih =>
    obtain ⟨k, hk, rfl⟩ := hstep
    rw [entryAt?_set hk.ne_nil]
    by_cases hlk : l = k
    · subst hlk
      rw [if_pos rfl]
      have hnone := hk.entryAt?_eq_none
      rcases ih with hsame | ⟨hold, _⟩
      · exact Or.inr ⟨hsame ▸ hnone, rfl⟩
      · exact Or.inr ⟨hold, rfl⟩
    · rw [if_neg hlk]
      exact ih

theorem workingDirectory (h : MakesDirectories fs fs') : fs'.workingDirectory = fs.workingDirectory := by
  induction h with
  | refl => rfl
  | tail _ hstep ih =>
    obtain ⟨_, _, rfl⟩ := hstep
    exact ih

/-- Either nothing was made, or there is a directory where nothing was. -/
theorem eq_or_new (h : MakesDirectories fs fs') :
    fs' = fs ∨ ∃ l, fs.entryAt? l = none ∧ fs'.entryAt? l = some .directory := by
  cases h with
  | refl => exact Or.inl rfl
  | @tail fs₁ _ hbefore hstep =>
    obtain ⟨l, hl, rfl⟩ := hstep
    have hnone := hl.entryAt?_eq_none
    refine Or.inr ⟨l, ?_, ?_⟩
    · rcases MakesDirectories.entry hbefore l with hsame | ⟨hold, _⟩
      · rw [← hsame, hnone]
      · exact hold
    · rw [entryAt?_set hl.ne_nil, if_pos rfl]

end MakesDirectories

theorem makesDirectory_createDirectory (h : fs.createDirectory p = .ok fs') : MakesDirectory fs fs' := by
  unfold createDirectory at h
  simp only at h
  split at h
  · cases h
  · split at h
    · cases h
    · cases h
    · rename_i l _ hlocate
      cases h
      exact ⟨l, isFree_of_locate hlocate, rfl⟩

/-- Making the last directory of a path makes at most one; if it succeeds, it makes one or finds one. -/
theorem createLast_cases (fs : FileSystem) (p : Path) :
    MakesDirectory fs (fs.createLast p).1 ∨
      (fs.createLast p).1 = fs ∧ ((fs.createLast p).2 = .ok () → fs.isDirectory p = true) := by
  unfold createLast
  cases hc : fs.createDirectory p with
  | ok fs' => exact Or.inl (makesDirectory_createDirectory hc)
  | error e =>
    refine Or.inr ⟨rfl, fun hok => ?_⟩
    by_contra hnot
    simp only [hnot, if_false] at hok
    cases hok

/-- A directory is made through some path. -/
def Creates (fs fs' : FileSystem) : Prop := ∃ p, fs.createDirectory p = .ok fs'

theorem creates_createLast (fs : FileSystem) (p : Path) :
    Relation.ReflTransGen Creates fs (fs.createLast p).1 := by
  unfold createLast
  cases hc : fs.createDirectory p with
  | ok fs' => exact Relation.ReflTransGen.single ⟨p, hc⟩
  | error e => exact Relation.ReflTransGen.refl

theorem creates_createUpTo (fs : FileSystem) (p : Path) (levels : Nat) :
    Relation.ReflTransGen Creates fs (fs.createUpTo p levels).1 := by
  induction levels generalizing p with
  | zero => exact creates_createLast fs p
  | succ levels ih =>
    unfold createUpTo
    split
    · exact Relation.ReflTransGen.refl
    · split
      · cases hparent : p.parent? with
        | none => exact Relation.ReflTransGen.refl
        | some parent =>
          -- the parent leaves behind directories only, whether it could be made or not
          have habove := ih parent
          dsimp only
          split
          · rename_i fs₁ e hcreate
            rw [hcreate] at habove
            exact habove
          · rename_i fs₁ hcreate
            rw [hcreate] at habove
            exact habove.trans (creates_createLast fs₁ p)
      · exact creates_createLast fs p

/-- **Making a directory makes directories one after another**, each through a path. -/
theorem creates_ensureDirectory (fs : FileSystem) (p : Path) :
    Relation.ReflTransGen Creates fs (fs.ensureDirectory p).1 := by
  unfold ensureDirectory createDirectories
  split
  · exact Relation.ReflTransGen.refl
  · exact creates_createUpTo fs p p.pieces.length

theorem makesDirectories_of_creates (h : Relation.ReflTransGen Creates fs fs') :
    MakesDirectories fs fs' := by
  induction h with
  | refl => exact Relation.ReflTransGen.refl
  | tail _ hstep ih =>
    obtain ⟨_, hmade⟩ := hstep
    exact ih.tail (makesDirectory_createDirectory hmade)

/-- What succeeds ends with the last directory of the path, behind those above it. -/
theorem createUpTo_eq_createLast {levels : Nat} (hne : p.isEmpty = false)
    (hok : (fs.createUpTo p levels).2 = .ok ()) :
    ∃ fs₁, MakesDirectories fs fs₁ ∧ fs.createUpTo p levels = fs₁.createLast p := by
  cases levels with
  | zero => exact ⟨fs, Relation.ReflTransGen.refl, rfl⟩
  | succ levels =>
    unfold createUpTo at hok ⊢
    simp only [hne, Bool.false_eq_true, if_false] at hok ⊢
    split
    · rename_i hmissing
      rw [hmissing] at hok
      cases hparent : p.parent? with
      | none =>
        rw [hparent] at hok
        cases hok
      | some parent =>
        rw [hparent] at hok
        have habove := makesDirectories_of_creates (creates_createUpTo fs parent levels)
        dsimp only at hok ⊢
        split
        · rename_i fs₁ e hcreate
          rw [hcreate] at hok
          cases hok
        · rename_i fs₁ hcreate
          rw [hcreate] at habove
          exact ⟨fs₁, habove, rfl⟩
    · exact ⟨fs, Relation.ReflTransGen.refl, rfl⟩

/-- **Making a directory puts directories in free places**, and does nothing else, also where it fails. -/
theorem makesDirectories_ensureDirectory (fs : FileSystem) (p : Path) :
    MakesDirectories fs (fs.ensureDirectory p).1 :=
  makesDirectories_of_creates (creates_ensureDirectory fs p)

/-- **Where the path led to no directory before, a directory is new.** -/
theorem exists_new_of_ensureDirectory (hok : (fs.ensureDirectory p).2 = .ok ())
    (hmissing : fs.isDirectory p = false) (hne : p.isEmpty = false) :
    ∃ l, fs.entryAt? l = none ∧ (fs.ensureDirectory p).1.entryAt? l = some .directory := by
  rcases (makesDirectories_ensureDirectory fs p).eq_or_new with hsame | hnew
  · exfalso
    have hcreate : fs.ensureDirectory p = fs.createUpTo p p.pieces.length := by
      rw [ensureDirectory, hmissing]
      rfl
    rw [hcreate] at hok hsame
    obtain ⟨fs₁, hmade, hlast⟩ := createUpTo_eq_createLast hne hok
    rw [hlast] at hok hsame
    rcases createLast_cases fs₁ p with ⟨l, hl, hset⟩ | ⟨hkept, hfound⟩
    · -- the place of the last directory is free to the end, and then it is not
      have hnone := hl.entryAt?_eq_none
      have hnew : fs.entryAt? l = some .directory := by
        rw [← hsame, hset, entryAt?_set hl.ne_nil, if_pos rfl]
      rcases hmade.entry l with hold | ⟨_, hdir⟩
      · rw [hold, hnew] at hnone
        cases hnone
      · rw [hdir] at hnone
        cases hnone
    · have hdir := hfound hok
      rw [← hkept, hsame, hmissing] at hdir
      cases hdir
  · exact hnew

/-! ## Writing files -/

instance (fs : FileSystem) (p : Path) (l : Location) : Decidable (fs.Denotes p l) :=
  inferInstanceAs (Decidable (fs.locate true p = .ok (.found l)))

section Written

variable {α : Type} {path : α → Path} {bytes : α → Bytes} {x : α} {xs : List α}

/-- The last of several things whose path leads to a place. -/
def lastTo? (path : α → Path) (fs : FileSystem) (xs : List α) (l : Location) : Option α :=
  (xs.filter fun x => fs.Denotes (path x) l).getLast?

/--
Things were written through their paths, one after another.  Each path leads to a file now, which holds the
last thing whose path leads there; all other entries are the same.
-/
structure Written (path : α → Path) (bytes : α → Bytes) (fs fs' : FileSystem) (xs : List α) : Prop where
  isNested : fs'.IsNested
  onlyFiles : fs.OnlyFiles fs'
  leads : ∀ x ∈ xs, ∃ l, fs'.Denotes (path x) l
  entry : ∀ l, fs'.entryAt? l =
    (lastTo? path fs' xs l).elim (fs.entryAt? l) fun x => some (.file (bytes x))

theorem lastTo?_eq_some (h : lastTo? path fs xs l = some x) : x ∈ xs ∧ fs.Denotes (path x) l := by
  simpa using List.mem_filter.mp (List.mem_of_getLast? h)

theorem exists_lastTo? (hx : x ∈ xs) (hl : fs.Denotes (path x) l) :
    ∃ y, lastTo? path fs xs l = some y := by
  have hmem : x ∈ xs.filter fun x => fs.Denotes (path x) l := by
    rw [List.mem_filter]
    exact ⟨hx, by simpa using hl⟩
  exact Option.ne_none_iff_exists'.mp (mt List.getLast?_eq_none_iff.mp (List.ne_nil_of_mem hmem))

theorem lastTo?_cons (x : α) (xs : List α) (l : Location) :
    lastTo? path fs (x :: xs) l =
      (lastTo? path fs xs l).or (if fs.Denotes (path x) l then some x else none) := by
  unfold lastTo?
  rw [List.filter_cons]
  split
  · rename_i h
    rw [if_pos (by simpa using h), List.getLast?_cons]
    cases (xs.filter fun x => fs.Denotes (path x) l).getLast? <;> rfl
  · rename_i h
    rw [if_neg (by simpa using h), Option.or_none]

namespace Written

theorem nil (hfs : fs.IsNested) : Written path bytes fs fs [] :=
  ⟨hfs, OnlyFiles.refl fs, fun _ h => absurd h List.not_mem_nil, fun _ => rfl⟩

/-- **One more write in front.**  It counts where no later path leads. -/
theorem cons (hfs : fs.IsNested) (hput : fs.putFile (path x) (bytes x) = .ok fs')
    (h : Written path bytes fs' fs'' xs) : Written path bytes fs fs'' (x :: xs) := by
  obtain ⟨l, hne, rfl, hfiles, hnested, hdenotes⟩ := putFile_spec hfs hput
  have hlast := h.onlyFiles.denotes hdenotes
  refine ⟨h.isNested, hfiles.trans h.onlyFiles, ?_, fun k => ?_⟩
  · intro y hy
    rcases List.mem_cons.mp hy with rfl | hy
    · exact ⟨l, hlast⟩
    · exact h.leads y hy
  · rw [lastTo?_cons, h.entry k]
    cases hk : lastTo? path fs'' xs k with
    | some y => rfl
    | none =>
      simp only [Option.elim_none, Option.none_or]
      rw [entryAt?_set hne]
      by_cases hkl : k = l
      · subst hkl
        rw [if_pos rfl, if_pos hlast]
        rfl
      · have hnot : ¬ fs''.Denotes (path x) k := fun hx => hkl (hx.unique hlast)
        rw [if_neg hkl, if_neg hnot]
        rfl

/-- What a path was written through leads to a file that holds the last thing written there. -/
theorem exists_last (h : Written path bytes fs fs' xs) (hx : x ∈ xs) :
    ∃ l y, fs'.Denotes (path x) l ∧ lastTo? path fs' xs l = some y ∧
      fs'.entryAt? l = some (.file (bytes y)) := by
  obtain ⟨l, hl⟩ := h.leads x hx
  obtain ⟨y, hy⟩ := exists_lastTo? hx hl
  refine ⟨l, y, hl, hy, ?_⟩
  rw [h.entry l, hy]
  rfl

end Written

end Written

end ContractBindings.FileSystem
