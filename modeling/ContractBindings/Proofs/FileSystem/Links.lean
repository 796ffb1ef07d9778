import ContractBindings.Proofs.FileSystem.Change

/-!
# Walking through links

In a tree with symbolic links a walk is no plain recursion: behind a link it starts again.  Much less is
known of such a tree, but what is known survives the writing of files.

* `trail_of_walk`: a walk that comes to a spot has a `Trail`, which says step by step what it does;
* `ends_of_locate`: a walk that follows links ends at an entry that is no link, or at a free place in a
  directory;
* `OnlyFiles`: trees that differ in files only;
* `OnlyFiles.denotes_of_locate`: a path leads where it led before, and to a file that is new where it led
  to nothing;
* `putFile_cases`, `putFile_spec`: what is written through a path makes such a tree, and the path leads to it.
-/

set_option autoImplicit false

namespace ContractBindings.FileSystem

open ContractBindings.Path

variable {fs fs' fs'' : FileSystem} {l m : Location} {steps : List Step} {spot : Spot}

/-! ## Where walks end -/

/-- An entry that is no link. -/
def IsGoal (fs : FileSystem) (l : Location) : Prop := ∃ e, fs.entryAt? l = some e ∧ isLink e = false

/-- Where a walk may end that follows links. -/
def Ends (fs : FileSystem) : Spot → Prop
  | .found l => fs.IsGoal l
  | .vacant l _ => ∃ d n, l = d ++ [n] ∧ fs.isDirectoryAt d = true ∧ fs.entryAt? l = none

theorem isGoal_of_isDirectoryAt (h : fs.isDirectoryAt l = true) : fs.IsGoal l :=
  ⟨.directory, isDirectoryAt_iff.mp h, rfl⟩

theorem IsNested.dropLast (hfs : fs.IsNested) (h : fs.isDirectoryAt l = true) :
    fs.isDirectoryAt l.dropLast = true := by
  rcases List.eq_nil_or_concat l with rfl | ⟨init, n, rfl⟩
  · exact h
  · rw [List.concat_eq_append] at h ⊢
    rw [List.dropLast_concat]
    exact hfs.above init n (by simp [isDirectoryAt_iff.mp h])

section Steps

variable {follow : Bool} {k : Nat} {n : Name} {rest : List Step}

theorem walk_stay {step : Step} (h : step = .here ∨ step = .slash) (hl : fs.isDirectoryAt l = true) :
    fs.walk follow k l (step :: rest) = fs.walk follow k l rest := by
  cases k <;> rcases h with rfl | rfl <;> simp [walk, walkFrom, hl]

theorem walk_up (hl : fs.isDirectoryAt l = true) :
    fs.walk follow k l (.up :: rest) = fs.walk follow k l.dropLast rest := by
  cases k <;> simp [walk, walkFrom, hl]

theorem walk_of_not_directory (hl : fs.isDirectoryAt l = false) (step : Step) :
    fs.walk follow k l (step :: rest) = .error .notDirectory := by
  cases k <;> simp [walk, walkFrom, hl]

theorem walk_vacant (hl : fs.isDirectoryAt l = true) (h : fs.entryAt? (l ++ [n]) = none) :
    fs.walk follow k l (.down n :: rest) =
      if rest.all (· == .slash) then .ok (.vacant (l ++ [n]) (!rest.isEmpty))
      else .error .notFound := by
  cases k <;> simp [walk, walkFrom, hl, h]

theorem walk_down (hl : fs.isDirectoryAt l = true) (h : fs.IsGoal (l ++ [n])) :
    fs.walk follow k l (.down n :: rest) = fs.walk follow k (l ++ [n]) rest := by
  obtain ⟨e, he, hlink⟩ := h
  cases e with
  | link t => cases hlink
  | directory => cases k <;> simp [walk, walkFrom, hl, he]
  | file b => cases k <;> simp [walk, walkFrom, hl, he]
  | program p => cases k <;> simp [walk, walkFrom, hl, he]

section Link

variable {t : Path} (hl : fs.isDirectoryAt l = true) (h : fs.entryAt? (l ++ [n]) = some (.link t))
include hl h

/-- A link in the middle is entered, one at the end only if links are followed. -/
theorem walk_link (hgo : follow = true ∨ rest ≠ []) :
    fs.walk follow (k + 1) l (.down n :: rest) =
      fs.walk follow k (if t.isAbsolute then [] else l) (t.steps ++ rest) := by
  rw [walk, walkFrom]
  rcases hgo with rfl | hne
  · simp [hl, h]
  · simp [hl, h, hne]

theorem walk_link_zero (hgo : follow = true ∨ rest ≠ []) :
    fs.walk follow 0 l (.down n :: rest) = .error .tooManyLinks := by
  rw [walk, walkFrom]
  rcases hgo with rfl | hne
  · simp [hl, h]
  · simp [hl, h, hne]

theorem walk_link_end : fs.walk false k l [.down n] = .ok (.found (l ++ [n])) := by
  cases k <;> simp [walk, walkFrom, hl, h]

end Link

/-- Nothing, a link, or an entry that a walk goes on from. -/
theorem entry_cases (fs : FileSystem) (l : Location) :
    fs.entryAt? l = none ∨ (∃ t, fs.entryAt? l = some (.link t)) ∨ fs.IsGoal l := by
  cases he : fs.entryAt? l with
  | none => exact Or.inl rfl
  | some e =>
    cases e with
    | link t => exact Or.inr (Or.inl ⟨t, rfl⟩)
    | directory => exact Or.inr (Or.inr ⟨_, he, rfl⟩)
    | file b => exact Or.inr (Or.inr ⟨_, he, rfl⟩)
    | program p => exact Or.inr (Or.inr ⟨_, he, rfl⟩)

end Steps

/-- The way of a walk that comes to a spot, and how many links it may enter at each step. -/
inductive Trail (fs : FileSystem) (follow : Bool) : Nat → Location → List Step → Spot → Prop where
  | nil (k : Nat) (l : Location) : Trail fs follow k l [] (.found l)
  | stay {k : Nat} {l : Location} {step : Step} {rest : List Step} {spot : Spot}
    (hstep : step = .here ∨ step = .slash) (hl : fs.isDirectoryAt l = true)
    (hrest : Trail fs follow k l rest spot) : Trail fs follow k l (step :: rest) spot
  | up {k : Nat} {l : Location} {rest : List Step} {spot : Spot} (hl : fs.isDirectoryAt l = true)
    (hrest : Trail fs follow k l.dropLast rest spot) : Trail fs follow k l (.up :: rest) spot
  | down {k : Nat} {l : Location} {n : Name} {rest : List Step} {spot : Spot}
    (hl : fs.isDirectoryAt l = true) (hgoal : fs.IsGoal (l ++ [n]))
    (hrest : Trail fs follow k (l ++ [n]) rest spot) : Trail fs follow k l (.down n :: rest) spot
  /-- Behind a link the steps of its target come first. -/
  | link {k : Nat} {l : Location} {n : Name} {t : Path} {rest : List Step} {spot : Spot}
    (hl : fs.isDirectoryAt l = true) (ht : fs.entryAt? (l ++ [n]) = some (.link t))
    (hgo : follow = true ∨ rest ≠ [])
    (hrest : Trail fs follow k (if t.isAbsolute then [] else l) (t.steps ++ rest) spot) :
    Trail fs follow (k + 1) l (.down n :: rest) spot
  /-- A link at the end is not entered if links are not followed. -/
  | atLink {k : Nat} {l : Location} {n : Name} {t : Path} (hl : fs.isDirectoryAt l = true)
    (ht : fs.entryAt? (l ++ [n]) = some (.link t)) (hfollow : follow = false) :
    Trail fs follow k l [.down n] (.found (l ++ [n]))
  /-- Where nothing stands only slashes may follow. -/
  | vacant {k : Nat} {l : Location} {n : Name} {rest : List Step} (hl : fs.isDirectoryAt l = true)
    (hnone : fs.entryAt? (l ++ [n]) = none) (hslashes : rest.all (· == .slash) = true) :
    Trail fs follow k l (.down n :: rest) (.vacant (l ++ [n]) (!rest.isEmpty))

/-- **A walk that comes to a spot has a trail.**  By induction on the links it may enter, and along its steps
between two of them. -/
theorem trail_of_walk {follow : Bool} {k : Nat} (h : fs.walk follow k l steps = .ok spot) :
    fs.Trail follow k l steps spot := by
  induction k using Nat.strongRecOn generalizing l steps with
  | ind k hlinks =>
    induction steps generalizing l with
    | nil =>
      have hend : fs.walk follow k l [] = .ok (.found l) := by cases k <;> rfl
      rw [hend] at h
      cases h
      exact .nil k l
    | cons step rest ih =>
      cases hl : fs.isDirectoryAt l with
      | false => rw [walk_of_not_directory hl] at h; cases h
      | true =>
        cases step with
        | here => exact .stay (.inl rfl) hl (ih (walk_stay (.inl rfl) hl ▸ h))
        | slash => exact .stay (.inr rfl) hl (ih (walk_stay (.inr rfl) hl ▸ h))
        | up => exact .up hl (ih (walk_up hl ▸ h))
        | down n =>
          rcases entry_cases fs (l ++ [n]) with hnone | ⟨t, ht⟩ | hgoal
          · rw [walk_vacant hl hnone] at h
            split at h
            · rename_i hslashes
              cases h
              exact .vacant hl hnone hslashes
            · cases h
          · -- the walk stops at the link, or goes on behind it
            by_cases hgo : follow = true ∨ rest ≠ []
            · cases k with
              | zero => rw [walk_link_zero hl ht hgo] at h; cases h
              | succ k =>
                rw [walk_link hl ht hgo] at h
                exact .link hl ht hgo (hlinks k (Nat.lt_succ_self k) h)
            · rw [not_or, not_not, Bool.not_eq_true] at hgo
              obtain ⟨rfl, rfl⟩ := hgo
              rw [walk_link_end hl ht] at h
              cases h
              exact .atLink hl ht rfl
          · exact .down hl hgoal (ih (walk_down hl hgoal ▸ h))

/-- The trail of a walk says where it ends. -/
theorem Trail.walk_eq {follow : Bool} {k : Nat} (h : fs.Trail follow k l steps spot) :
    fs.walk follow k l steps = .ok spot := by
  induction h with
  | nil k l => cases k <;> rfl
  | stay hstep hl _ ih => rw [walk_stay hstep hl, ih]
  | up hl _ ih => rw [walk_up hl, ih]
  | down hl hgoal _ ih => rw [walk_down hl hgoal, ih]
  | link hl ht hgo _ ih => rw [walk_link hl ht hgo, ih]
  | atLink hl ht hfollow => rw [hfollow, walk_link_end hl ht]
  | vacant hl hnone hslashes => rw [walk_vacant hl hnone, if_pos hslashes]

/-- A walk that follows links ends well. -/
theorem Trail.ends {k : Nat} (h : fs.Trail true k l steps spot) (hfs : fs.IsNested) (hl : fs.IsGoal l) :
    fs.Ends spot := by
  induction h with
  | nil => exact hl
  | stay _ _ _ ih => exact ih hl
  | up hd _ ih => exact ih (isGoal_of_isDirectoryAt (hfs.dropLast hd))
  | down _ hgoal _ ih => exact ih hgoal
  | link hd _ _ _ ih =>
    refine ih (isGoal_of_isDirectoryAt ?_)
    split
    · exact isDirectoryAt_nil
    · exact hd
  | atLink _ _ hfollow => cases hfollow
  | vacant hd hnone _ => exact ⟨_, _, rfl, hd, hnone⟩

/-- **A path that can be followed leads to an entry that is no link, or to a free place.** -/
theorem ends_of_locate (hfs : fs.IsNested) {p : Path} (h : fs.locate true p = .ok spot) :
    fs.Ends spot := by
  refine (trail_of_walk (walk_of_locate h)).ends hfs (isGoal_of_isDirectoryAt ?_)
  unfold origin
  split
  · exact isDirectoryAt_nil
  · exact hfs.start

/-! ## Trees that differ in files -/

/-- Trees that differ in files only: where another file is, there was neither a directory nor a link. -/
structure OnlyFiles (fs fs' : FileSystem) : Prop where
  workingDirectory : fs'.workingDirectory = fs.workingDirectory
  entry : ∀ l, fs'.entryAt? l = fs.entryAt? l ∨
    fs.isDirectoryAt l = false ∧ (∀ t, fs.entryAt? l ≠ some (.link t)) ∧
      ∃ b, fs'.entryAt? l = some (.file b)

namespace OnlyFiles

theorem refl (fs : FileSystem) : fs.OnlyFiles fs := ⟨rfl, fun _ => Or.inl rfl⟩

theorem isDirectoryAt (h : fs.OnlyFiles fs') (l : Location) :
    fs'.isDirectoryAt l = fs.isDirectoryAt l := by
  unfold FileSystem.isDirectoryAt
  rcases h.entry l with he | ⟨hd, _, b, he⟩
  · rw [he]
  · unfold FileSystem.isDirectoryAt at hd
    rw [hd, he]
    rfl

theorem link (h : fs.OnlyFiles fs') {t : Path} (hl : fs.entryAt? l = some (.link t)) :
    fs'.entryAt? l = some (.link t) := by
  rcases h.entry l with he | ⟨_, hnot, _⟩
  · rw [he, hl]
  · exact absurd hl (hnot t)

theorem isGoal (h : fs.OnlyFiles fs') (hl : fs.IsGoal l) : fs'.IsGoal l := by
  rcases h.entry l with he | ⟨_, _, b, hb⟩
  · unfold IsGoal
    rw [he]
    exact hl
  · exact ⟨_, hb, rfl⟩

theorem trans (h : fs.OnlyFiles fs') (h' : fs'.OnlyFiles fs'') : fs.OnlyFiles fs'' := by
  refine ⟨h'.workingDirectory.trans h.workingDirectory, fun l => ?_⟩
  rcases h'.entry l with he' | ⟨hd, hnot, hb⟩
  · rw [he']
    exact h.entry l
  · right
    refine ⟨(h.isDirectoryAt l).symm.trans hd, ?_, hb⟩
    intro t ht
    exact hnot t (h.link ht)

end OnlyFiles

/-- A spot in the old tree that is this location in the new one. -/
def LeadsTo (fs' : FileSystem) (m : Location) (spot : Spot) : Prop :=
  spot = .found m ∨ spot = .vacant m false ∧ ∃ b, fs'.entryAt? m = some (.file b)

/-- **A walk goes the same way in both trees**, and on to a file that is new at its end. -/
theorem OnlyFiles.trail (h : fs.OnlyFiles fs') {k : Nat} (htrail : fs.Trail true k l steps spot)
    (hspot : fs'.LeadsTo m spot) : fs'.Trail true k l steps (.found m) := by
  have hdirectory : ∀ {d}, fs.isDirectoryAt d = true → fs'.isDirectoryAt d = true :=
    fun hd => (h.isDirectoryAt _).trans hd
  induction htrail with
  | nil k l =>
    rcases hspot with he | ⟨he, _⟩
    · cases he
      exact .nil k m
    · cases he
  | stay hstep hl _ ih => exact .stay hstep (hdirectory hl) (ih hspot)
  | up hl _ ih => exact .up (hdirectory hl) (ih hspot)
  | down hl hgoal _ ih => exact .down (hdirectory hl) (h.isGoal hgoal) (ih hspot)
  | link hl ht hgo _ ih => exact .link (hdirectory hl) (h.link ht) hgo (ih hspot)
  | atLink _ _ hfollow => cases hfollow
  | @vacant k l n rest hl hnone hslashes =>
    -- only a new file makes the walk end at an entry
    rcases hspot with hfound | ⟨hvacant, b, hb⟩
    · cases hfound
    · cases rest with
      | nil =>
        cases hvacant
        exact .down (hdirectory hl) ⟨_, hb, rfl⟩ (.nil k _)
      | cons s rest => cases hvacant

/-- **A path leads where it led before**, or to the file that is new there. -/
theorem OnlyFiles.denotes_of_locate (h : fs.OnlyFiles fs') {p : Path}
    (hp : fs.locate true p = .ok spot) (hspot : fs'.LeadsTo m spot) : fs'.Denotes p m := by
  obtain ⟨hnul, hne, hwalk⟩ := locate_eq_ok_iff.mp hp
  rw [Denotes, locate_eq_walk hnul hne, origin_congr h.workingDirectory]
  exact (h.trail (trail_of_walk hwalk) hspot).walk_eq

theorem OnlyFiles.denotes (h : fs.OnlyFiles fs') {p : Path} (hp : fs.Denotes p m) : fs'.Denotes p m :=
  h.denotes_of_locate hp (Or.inl rfl)

/-! ## Writing files -/

theorem onlyFiles_set (hl : l ≠ []) (hd : fs.isDirectoryAt l = false)
    (hlink : ∀ t, fs.entryAt? l ≠ some (.link t)) (b : Text.Bytes) :
    fs.OnlyFiles (fs.set l (.file b)) := by
  refine ⟨rfl, fun k => ?_⟩
  rw [entryAt?_set hl]
  by_cases hk : k = l
  · subst hk
    right
    exact ⟨hd, hlink, b, if_pos rfl⟩
  · left
    exact if_neg hk

theorem OnlyFiles.isNested (h : fs.OnlyFiles fs') (hfs : fs.IsNested)
    (hnew : ∀ d n, fs.entryAt? (d ++ [n]) = none → fs'.entryAt? (d ++ [n]) ≠ none →
      fs.isDirectoryAt d = true) : fs'.IsNested := by
  constructor
  · intro d n he
    rw [h.isDirectoryAt]
    by_cases hold : fs.entryAt? (d ++ [n]) = none
    · exact hnew d n hold he
    · exact hfs.above d n hold
  · rw [h.workingDirectory, h.isDirectoryAt]
    exact hfs.start

/-- A file may be written where something is, or into a directory. -/
theorem OnlyFiles.isNested_set {b : Text.Bytes} (h : fs.OnlyFiles (fs.set l (.file b))) (hfs : fs.IsNested)
    (hl : l ≠ []) (hplace : ∀ d n, l = d ++ [n] → fs.entryAt? l = none → fs.isDirectoryAt d = true) :
    (fs.set l (.file b)).IsNested := by
  refine h.isNested hfs fun d n hold hnew => ?_
  rw [entryAt?_set hl] at hnew
  split at hnew
  · rename_i hsame
    exact hplace d n hsame.symm (hsame ▸ hold)
  · exact absurd hold hnew

/-- A file is written where the path leads, unless a directory is there, or to the free place it leads to. -/
theorem putFile_cases {p : Path} {b : Text.Bytes} (h : fs.putFile p b = .ok fs') :
    ∃ l, fs' = fs.set l (.file b) ∧ (fs.locate true p = .ok (.vacant l false) ∨
      fs.locate true p = .ok (.found l) ∧ fs.isDirectoryAt l = false) := by
  unfold putFile at h
  split at h
  · cases h
  · rename_i l asDirectory hloc
    cases asDirectory with
    | true => cases h
    | false =>
      cases h
      exact ⟨l, rfl, .inl hloc⟩
  · rename_i l hloc
    split at h
    · cases h
    · rename_i hd
      cases h
      exact ⟨l, rfl, .inr ⟨hloc, by simpa using hd⟩⟩

/-- **A file that is written through a path** takes one place, where no directory and no link was, and the
path leads there. -/
theorem putFile_spec (hfs : fs.IsNested) {p : Path} {b : Text.Bytes} (h : fs.putFile p b = .ok fs') :
    ∃ l, l ≠ [] ∧ fs' = fs.set l (.file b) ∧ fs.OnlyFiles fs' ∧ fs'.IsNested ∧ fs'.Denotes p l := by
  obtain ⟨l, rfl, hloc | ⟨hloc, hfile⟩⟩ := putFile_cases h
  · obtain ⟨d, n, rfl, hd, hnone⟩ := ends_of_locate hfs hloc
    have hfiles : fs.OnlyFiles (fs.set (d ++ [n]) (.file b)) := by
      refine onlyFiles_set (by simp) ?_ ?_ b
      · simp [isDirectoryAt, hnone]
      · simp [hnone]
    have hnew : (fs.set (d ++ [n]) (.file b)).entryAt? (d ++ [n]) = some (.file b) := by
      rw [entryAt?_set (by simp), if_pos rfl]
    refine ⟨d ++ [n], by simp, rfl, hfiles, hfiles.isNested_set hfs (by simp) fun d' n' hsame _ => ?_,
      hfiles.denotes_of_locate hloc (Or.inr ⟨rfl, b, hnew⟩)⟩
    obtain ⟨rfl, _⟩ := List.append_inj' hsame rfl
    exact hd
  · obtain ⟨e, he, hlink⟩ := ends_of_locate hfs hloc
    have hne : l ≠ [] := by
      rintro rfl
      rw [isDirectoryAt_nil] at hfile
      cases hfile
    have hfiles : fs.OnlyFiles (fs.set l (.file b)) := by
      refine onlyFiles_set hne hfile ?_ b
      intro t ht
      rw [ht] at he
      cases he
      cases hlink
    refine ⟨l, hne, rfl, hfiles, hfiles.isNested_set hfs hne fun d n _ hnone => ?_, hfiles.denotes hloc⟩
    rw [he] at hnone
    cases hnone

end ContractBindings.FileSystem
