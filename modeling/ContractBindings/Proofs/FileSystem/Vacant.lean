import Mathlib
import ContractBindings.Proofs.FileSystem.Arrival
import ContractBindings.Proofs.FileSystem.Effects

/-!
# New directories in trees with links

A directory is made at a path at whose end nothing stands, not even a link, and filled with files.  The way to
its parent may go through links, and slashes at the end of the path do not count.

* `IsVacant.exists_endsAt`: such a path arrives in a directory with all its steps but the last name;
* `IsVacant.ensureDirectory_eq`: making the directory sets one entry, and succeeds;
* `IsVacant.denotes`: the path leads to the new directory then;
* `HoldsFiles.putFile_eq`: a file is written into a directory that holds nothing but files, as a new one does.
-/

set_option autoImplicit false

namespace ContractBindings.FileSystem

open ContractBindings.Path Text

variable {fs fs' : FileSystem} {p : Path} {k k' : Nat} {l d m : Location} {n : Name}
  {xs : List Step} {step : Step} {b : Bool}

/-! ## Slashes at the end of a path -/

theorem between_replicate {α : Type} [DecidableEq α] (s : α) (count : Nat) :
    between s (List.replicate count s) = List.replicate (count + 1) [] := by
  induction count with
  | zero => rfl
  | succ count ih => rw [List.replicate_succ, between_cons_self, ih, ← List.replicate_succ]

/-- A list that does not end with a separator has a last piece that is not empty. -/
theorem between_concat_of_ne {α : Type} [DecidableEq α] {s a : α} (h : a ≠ s) (as : List α) :
    ∃ pieces piece, between s (as ++ [a]) = pieces ++ [piece ++ [a]] := by
  induction as using between_induction (s := s) with
  | last as has =>
    have hnot : s ∉ as ++ [a] := by simp [has, Ne.symm h]
    exact ⟨[], as, by rw [between_of_not_mem hnot, List.nil_append]⟩
  | more as bs _ ih =>
    obtain ⟨pieces, piece, hbs⟩ := ih
    refine ⟨between s as ++ pieces, piece, ?_⟩
    rw [List.append_assoc, List.cons_append, between_append, hbs, List.append_assoc]

/-- A path is its part without trailing slashes, and these slashes. -/
theorem bytes_eq_append_slashes (p : Path) :
    ∃ count, p.bytes = p.withoutTrailingSlashes.bytes ++ List.replicate count separator := by
  let slashes := p.bytes.reverse.takeWhile (· == separator)
  have hall : slashes = List.replicate slashes.length separator :=
    List.eq_replicate_of_mem fun x hx => by simpa using List.mem_takeWhile_imp hx
  refine ⟨slashes.length, ?_⟩
  calc p.bytes = (slashes ++ p.bytes.reverse.dropWhile (· == separator)).reverse := by
        rw [List.takeWhile_append_dropWhile, List.reverse_reverse]
    _ = p.withoutTrailingSlashes.bytes ++ slashes.reverse := List.reverse_append
    _ = p.withoutTrailingSlashes.bytes ++ List.replicate slashes.length separator := by
        exact congrArg _ (by conv_lhs => rw [hall, List.reverse_replicate])

/-- What is left of a path without the slashes at its end does not end with a slash. -/
theorem exists_bytes_eq_concat (h : p.withoutTrailingSlashes.bytes ≠ []) :
    ∃ b x, x ≠ separator ∧ p.withoutTrailingSlashes.bytes = b ++ [x] := by
  have hne : p.bytes.reverse.dropWhile (· == separator) ≠ [] := fun he => h (List.reverse_eq_nil_iff.mpr he)
  obtain ⟨x, rest, hrest⟩ := List.exists_cons_of_ne_nil hne
  refine ⟨rest.reverse, x, ?_, ?_⟩
  · have hhead := List.head_dropWhile_not (· == separator) hne
    simpa [hrest] using hhead
  · rw [withoutTrailingSlashes, hrest, List.reverse_cons]

/-- **Slashes at the end of a path only add steps behind the last one**, which is no slash. -/
theorem steps_eq_append_slashes (h : p.withoutTrailingSlashes.bytes ≠ []) :
    ∃ xs step count, step ≠ .slash ∧ p.withoutTrailingSlashes.steps = xs ++ [step] ∧
      p.steps = xs ++ step :: List.replicate count .slash := by
  obtain ⟨count, hbytes⟩ := bytes_eq_append_slashes p
  obtain ⟨b, x, hx, hlast⟩ := exists_bytes_eq_concat h
  obtain ⟨pieces, piece, hpieces⟩ := between_concat_of_ne hx b
  have hpart : p.withoutTrailingSlashes.pieces = pieces ++ [piece ++ [x]] := by rw [pieces_eq, hlast, hpieces]
  have hall : p.pieces = p.withoutTrailingSlashes.pieces ++ List.replicate count [] := by
    rw [pieces_eq, pieces_eq, hbytes]
    cases count with
    | zero => simp
    | succ count => rw [List.replicate_succ, between_append, between_replicate]
  refine ⟨pieces.map stepOfPiece, stepOfPiece (piece ++ [x]), count, ?_, ?_, ?_⟩
  · unfold stepOfPiece
    split_ifs <;> simp_all
  · rw [steps, hpart, List.map_append]
    rfl
  · rw [steps, hall, hpart, List.map_append, List.map_append, List.map_replicate, List.append_assoc]
    rfl

theorem isAbsolute_withoutTrailingSlashes (h : p.withoutTrailingSlashes.bytes ≠ []) :
    p.withoutTrailingSlashes.isAbsolute = p.isAbsolute := by
  obtain ⟨count, hbytes⟩ := bytes_eq_append_slashes p
  unfold isAbsolute
  rw [hbytes, List.head?_append_of_ne_nil _ h]

theorem bytes_of_pieces {p : Path} {ps : List Bytes} {n : Bytes} (hp : p.pieces = ps ++ [n]) :
    ∃ b, p.bytes = b ++ n := by
  rw [← joinPieces_pieces p, hp]
  clear hp
  induction ps with
  | nil => exact ⟨[], rfl⟩
  | cons piece ps ih =>
    obtain ⟨b, hb⟩ := ih
    refine ⟨piece ++ separator :: b, ?_⟩
    rw [List.cons_append, joinPieces_cons (by simp), hb]
    simp

theorem withoutTrailingSlashes_of_pieces {p : Path} {ps : List Bytes} {n : Name}
    (hp : p.pieces = ps ++ [n]) (hn : IsName n) : p.withoutTrailingSlashes = p := by
  obtain ⟨b, hb⟩ := bytes_of_pieces hp
  obtain ⟨init, x, rfl⟩ := (List.eq_nil_or_concat n).resolve_left hn.ne_nil
  have hx : x ≠ separator := fun e => hn.no_separator (by simp [e])
  have hkept : (p.bytes.reverse.dropWhile (· == separator)).reverse = p.bytes := by
    rw [hb]
    simp [hx]
  rw [withoutTrailingSlashes, hkept]

/-! ## Paths to a name in a directory -/

/-- A path goes to a directory and ends with a name in it; slashes may follow. -/
structure EndsAt (fs : FileSystem) (p : Path) (d : Location) (n : Name) : Prop where
  no_nul : (0 : UInt8) ∉ p.bytes
  ne_nil : p.bytes ≠ []
  directory : fs.isDirectoryAt d = true
  arrives : ∃ k xs count, p.steps = xs ++ .down n :: List.replicate count .slash ∧
    fs.Arrives maxLinks (fs.origin p) xs k d

/-- A walk that ends at a free place arrives in a directory with all steps but the last, which is a name. -/
theorem exists_arrives_of_vacant (hstep : step ≠ .slash)
    (h : fs.walk false k l (xs ++ [step]) = .ok (.vacant m b)) :
    ∃ k' d n, fs.Arrives k l xs k' d ∧ fs.isDirectoryAt d = true ∧ step = .down n ∧ m = d ++ [n] ∧
      fs.entryAt? m = none := by
  obtain ⟨k', d, harrives, hlast⟩ := (trail_of_walk h).split hstep
  cases hlast with
  | stay _ _ hrest => cases hrest
  | up _ hrest => cases hrest
  | down _ _ hrest => cases hrest
  | link _ _ hgo _ => simp at hgo
  | vacant hd hnone _ => exact ⟨k', d, _, harrives, hd, rfl, rfl, hnone⟩

/-- Every entry of a tree is kept. -/
structure Keeps (fs fs' : FileSystem) : Prop where
  workingDirectory : fs'.workingDirectory = fs.workingDirectory
  entry : ∀ l, fs.entryAt? l ≠ none → fs'.entryAt? l = fs.entryAt? l

namespace Keeps

variable (h : fs.Keeps fs')
include h

theorem isDirectoryAt (hl : fs.isDirectoryAt l = true) : fs'.isDirectoryAt l = true := by
  have he := isDirectoryAt_iff.mp hl
  rw [isDirectoryAt_iff, h.entry l (by simp [he]), he]

/-- **A walk arrives where it arrived** in a tree in which every entry is kept. -/
theorem arrives (harrives : fs.Arrives k l xs k' m) : fs'.Arrives k l xs k' m := by
  induction harrives with
  | nil k l => exact .nil k l
  | stay hstep hl _ ih => exact .stay hstep (h.isDirectoryAt hl) ih
  | up hl _ ih => exact .up (h.isDirectoryAt hl) ih
  | down hl hgoal _ ih =>
    obtain ⟨e, he, hlink⟩ := hgoal
    exact .down (h.isDirectoryAt hl) ⟨e, (h.entry _ (by simp [he])).trans he, hlink⟩ ih
  | link hl ht _ ih => exact .link (h.isDirectoryAt hl) ((h.entry _ (by simp [ht])).trans ht) ih

theorem endsAt (hends : fs.EndsAt p d n) : fs'.EndsAt p d n := by
  obtain ⟨k, xs, count, hsteps, harrives⟩ := hends.arrives
  exact ⟨hends.no_nul, hends.ne_nil, h.isDirectoryAt hends.directory, k, xs, count, hsteps,
    origin_congr h.workingDirectory p ▸ h.arrives harrives⟩

end Keeps

namespace EndsAt

variable (h : fs.EndsAt p d n)
include h

/-- A path to a name that is not there leads to no directory. -/
theorem isDirectory_eq_false (hnone : fs.entryAt? (d ++ [n]) = none) : fs.isDirectory p = false := by
  obtain ⟨k, xs, count, hsteps, harrives⟩ := h.arrives
  have hlocate : fs.locate true p = .ok (.vacant (d ++ [n]) (!(List.replicate count Step.slash).isEmpty)) := by
    rw [locate_eq_walk h.no_nul h.ne_nil, hsteps, harrives.walk_append (.inl rfl),
      walk_vacant h.directory hnone, if_pos (by simp)]
  simp [isDirectory, lookup, hlocate]

/-- A path to the name of a directory leads there. -/
theorem denotes (hd : fs.isDirectoryAt (d ++ [n]) = true) : fs.Denotes p (d ++ [n]) := by
  obtain ⟨k, xs, count, hsteps, harrives⟩ := h.arrives
  have hslashes : ∀ count, fs.Arrives k (d ++ [n]) (List.replicate count .slash) k (d ++ [n]) := by
    intro count
    induction count with
    | zero => exact .nil k _
    | succ count ih => exact .stay (.inr rfl) hd ih
  have hwalk := (harrives.append (.down h.directory (isGoal_of_isDirectoryAt hd) (hslashes count))).walk_eq
  rw [Denotes, locate_eq_walk h.no_nul h.ne_nil, hsteps]
  exact hwalk

end EndsAt

/-! ## Making a directory -/

/-- **Nothing stands at a path**, not even a link, and what is above it is a directory.  Slashes at its end do
not count. -/
def IsVacant (fs : FileSystem) (p : Path) (l : Location) : Prop :=
  ∃ asDirectory, fs.locate false p.withoutTrailingSlashes = .ok (.vacant l asDirectory)

/-- Nothing stands at a name in a directory that is not there. -/
theorem isVacant_join (hden : fs.Denotes p d) (hd : fs.isDirectoryAt d = true) (hn : IsName n)
    (hnone : fs.entryAt? (d ++ [n]) = none) : fs.IsVacant (p.join ⟨n⟩) (d ++ [n]) := by
  obtain ⟨_, _, _, hpieces⟩ := pieces_join hden.ne_nil
  obtain ⟨k, hleads⟩ := exists_leads hden
  refine ⟨false, ?_⟩
  rw [withoutTrailingSlashes_of_pieces (hpieces n hn.no_separator) hn,
    hleads.locate_join hn.no_separator hn.no_nul, stepOfPiece_of_isName hn, walk_vacant hd hnone]
  rfl

/-- A directory that is made in a free place keeps every entry. -/
theorem keeps_set (hnone : fs.entryAt? l = none) (hl : l ≠ []) (e : Entry) : fs.Keeps (fs.set l e) := by
  refine ⟨rfl, fun m hm => ?_⟩
  rw [entryAt?_set hl, if_neg]
  rintro rfl
  exact hm hnone

namespace IsVacant

variable (h : fs.IsVacant p l)
include h

theorem isFree : fs.IsFree l := by
  obtain ⟨_, hlocate⟩ := h
  exact isFree_of_locate hlocate

theorem ne_nil : p.withoutTrailingSlashes.bytes ≠ [] := by
  obtain ⟨_, hlocate⟩ := h
  intro hempty
  simp [locate, isEmpty, hempty] at hlocate

/-- **The path ends at the name of the place.** -/
theorem exists_endsAt : ∃ d n, l = d ++ [n] ∧ fs.EndsAt p d n := by
  have hne := h.ne_nil
  obtain ⟨xs, step, count, hstep, hpart, hsteps⟩ := steps_eq_append_slashes hne
  obtain ⟨slashes, hbytes⟩ := bytes_eq_append_slashes p
  have habsolute := isAbsolute_withoutTrailingSlashes hne
  obtain ⟨_, hlocate⟩ := h
  have hnul : (0 : UInt8) ∉ p.withoutTrailingSlashes.bytes := by
    intro hmem
    simp [locate, hmem] at hlocate
  have hwalk := walk_of_locate hlocate
  rw [hpart] at hwalk
  obtain ⟨k, d, n, harrives, hd, rfl, rfl, _⟩ := exists_arrives_of_vacant hstep hwalk
  refine ⟨d, n, rfl, ?_, ?_, hd, k, xs, count, hsteps, ?_⟩
  · rw [hbytes, List.mem_append, not_or]
    exact ⟨hnul, fun hmem => absurd (List.eq_of_mem_replicate hmem) (by decide)⟩
  · rw [hbytes]
    simp [hne]
  · rw [origin, ← habsolute]
    exact harrives

/-- **Making the directory succeeds, and sets one entry.** -/
theorem ensureDirectory_eq : fs.ensureDirectory p = (fs.set l .directory, .ok ()) := by
  obtain ⟨d, n, rfl, hends⟩ := h.exists_endsAt
  have hmissing := hends.isDirectory_eq_false h.isFree.entryAt?_eq_none
  have hcreate : fs.createDirectory p = .ok (fs.set (d ++ [n]) .directory) := by
    have hne := h.ne_nil
    obtain ⟨_, hlocate⟩ := h
    simp [createDirectory, isEmpty, hne, hlocate]
  have hnotEmpty : p.isEmpty = false := by simpa [isEmpty] using hends.ne_nil
  obtain ⟨levels, hlevels⟩ : ∃ levels, p.pieces.length = levels + 1 :=
    Nat.exists_eq_succ_of_ne_zero fun hzero => pieces_ne_nil p (List.length_eq_zero_iff.mp hzero)
  rw [ensureDirectory, hmissing, createDirectories, hlevels, createUpTo]
  simp only [Bool.false_eq_true, if_false, hnotEmpty, hcreate, createLast]

/-- **The path leads to the directory that was made.** -/
theorem denotes : (fs.set l .directory).Denotes p l := by
  have hfree := h.isFree
  obtain ⟨d, n, rfl, hends⟩ := h.exists_endsAt
  have hkeeps := keeps_set hfree.entryAt?_eq_none hfree.ne_nil .directory
  exact (hkeeps.endsAt hends).denotes (by rw [isDirectoryAt_iff, entryAt?_set hfree.ne_nil, if_pos rfl])

end IsVacant

/-! ## Files in a directory -/

/-- A path leads to a directory that holds nothing but files. -/
structure HoldsFiles (fs : FileSystem) (p : Path) (l : Location) : Prop where
  denotes : fs.Denotes p l
  directory : fs.isDirectoryAt l = true
  files : ∀ n, fs.entryAt? (l ++ [n]) = none ∨ ∃ b, fs.entryAt? (l ++ [n]) = some (.file b)

namespace HoldsFiles

variable (h : fs.HoldsFiles p l)
include h

theorem not_isDirectoryAt (n : Name) : fs.isDirectoryAt (l ++ [n]) = false := by
  rcases h.files n with hnone | ⟨b, hb⟩
  · rw [isDirectoryAt, hnone]
    rfl
  · rw [isDirectoryAt, hb]
    rfl

/-- **A file is written into the directory.** -/
theorem putFile_eq (hn : IsName n) (b : Bytes) :
    fs.putFile (p.join ⟨n⟩) b = .ok (fs.set (l ++ [n]) (.file b)) := by
  obtain ⟨k, hleads⟩ := exists_leads h.denotes
  have hlocate := hleads.locate_join hn.no_separator hn.no_nul true
  rw [stepOfPiece_of_isName hn] at hlocate
  rw [putFile, hlocate]
  rcases h.files n with hnone | ⟨old, hold⟩
  · rw [walk_vacant h.directory hnone]
    rfl
  · have hend : fs.walk true k (l ++ [n]) [] = .ok (.found (l ++ [n])) := by cases k <;> rfl
    rw [walk_down h.directory ⟨_, hold, rfl⟩, hend]
    simp [h.not_isDirectoryAt]

/-- Then it holds nothing but files still. -/
theorem set (n : Name) (b : Bytes) : (fs.set (l ++ [n]) (.file b)).HoldsFiles p l := by
  have hlink : ∀ t, fs.entryAt? (l ++ [n]) ≠ some (.link t) := by
    intro t ht
    rcases h.files n with hnone | ⟨old, hold⟩
    · rw [ht] at hnone
      cases hnone
    · rw [ht] at hold
      cases hold
  have hfiles := onlyFiles_set (by simp) (h.not_isDirectoryAt n) hlink b
  refine ⟨hfiles.denotes h.denotes, (hfiles.isDirectoryAt l).trans h.directory, fun m => ?_⟩
  rw [entryAt?_set (by simp)]
  split
  · exact .inr ⟨b, rfl⟩
  · exact h.files m

end HoldsFiles

/-- A new directory holds no entries. -/
theorem IsVacant.holdsFiles (hfs : fs.IsNested) (h : fs.IsVacant p l) :
    (fs.set l .directory).HoldsFiles p l := by
  have hne := h.isFree.ne_nil
  refine ⟨h.denotes, by rw [isDirectoryAt_iff, entryAt?_set hne, if_pos rfl], fun n => .inl ?_⟩
  rw [entryAt?_set hne, if_neg (by simp)]
  by_contra he
  exact entryAt?_of_append hfs he h.isFree.entryAt?_eq_none

end ContractBindings.FileSystem
