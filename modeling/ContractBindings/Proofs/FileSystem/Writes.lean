import ContractBindings.Proofs.FileSystem.Change

/-!
# Making files

Files that are written one by one.

* `entryAt?_makeWrites`: of several writes to one place the last one counts;
* `makeWrites_plain`: files with names, in directories and not in the place of directories, keep the tree
  plain.
-/

set_option autoImplicit false

namespace ContractBindings.FileSystem

open Text ContractBindings.Path

variable {fs : FileSystem}

def makeWrite (fs : FileSystem) (w : Location × Bytes) : FileSystem := fs.set w.1 (.file w.2)

def makeWrites (fs : FileSystem) (ws : List (Location × Bytes)) : FileSystem := ws.foldl makeWrite fs

theorem makeWrites_cons (fs : FileSystem) (w : Location × Bytes) (ws : List (Location × Bytes)) :
    fs.makeWrites (w :: ws) = (fs.makeWrite w).makeWrites ws := rfl

/-- **Of several writes to one place the last one counts.** -/
theorem entryAt?_makeWrites {ws : List (Location × Bytes)} (hws : ∀ w ∈ ws, w.1 ≠ []) (l : Location) :
    (makeWrites fs ws).entryAt? l =
      ((ws.filter fun w => w.1 = l).getLast?).elim (fs.entryAt? l) fun w => some (.file w.2) := by
  induction ws using List.reverseRecOn with
  | nil => rfl
  | append_singleton ws w ih =>
    have hstep : makeWrites fs (ws ++ [w]) = (makeWrites fs ws).set w.1 (.file w.2) := by
      simp [makeWrites, makeWrite]
    rw [hstep, entryAt?_set (hws w (by simp)), ih fun x hx => hws x (List.mem_append_left _ hx),
      List.filter_append]
    by_cases hl : w.1 = l
    · simp [hl]
    · have hempty : ([w].filter fun w => w.1 = l) = [] := by simp [hl]
      rw [hempty, List.append_nil, if_neg (Ne.symm hl)]

/-- What can be written: a file with a name, in a directory, and not in the place of a directory. -/
structure IsWritable (fs : FileSystem) (l : Location) : Prop where
  split : ∃ d n, l = d ++ [n] ∧ fs.isDirectoryAt d = true ∧ IsName n
  notDirectory : fs.isDirectoryAt l = false

theorem IsWritable.makeWrite {l : Location} (h : fs.IsWritable l) (w : Location × Bytes)
    (hw : fs.IsWritable w.1) : (fs.makeWrite w).IsWritable l := by
  obtain ⟨⟨d, n, rfl, hd, hn⟩, hnot⟩ := h
  obtain ⟨⟨e, m, he, _, _⟩, hnotw⟩ := hw
  have hne : w.1 ≠ [] := by rw [he]; simp
  have hkept : ∀ k, (fs.makeWrite w).isDirectoryAt k = fs.isDirectoryAt k := by
    intro k
    unfold isDirectoryAt at hnotw ⊢
    rw [FileSystem.makeWrite, entryAt?_set hne]
    split
    · rename_i hk; rw [hk, hnotw]; rfl
    · rfl
  exact ⟨⟨d, n, rfl, (hkept d).trans hd, hn⟩, (hkept _).trans hnot⟩

/-- **Writing files keeps the tree plain**, and it only grows. -/
theorem makeWrites_plain (hfs : fs.IsPlainTree) (ws : List (Location × Bytes))
    (hws : ∀ w ∈ ws, fs.IsWritable w.1) :
    (fs.makeWrites ws).IsPlainTree ∧ fs.Grows (fs.makeWrites ws) := by
  induction ws generalizing fs with
  | nil => exact ⟨hfs, Grows.refl fs⟩
  | cons w ws ih =>
    obtain ⟨⟨d, n, he, hd, hn⟩, hnot⟩ := hws w (by simp)
    have hfile : fs.isDirectoryAt (d ++ [n]) = true → Entry.file w.2 = .directory := by
      rw [← he, hnot]
      exact fun h => absurd h Bool.false_ne_true
    have hstep : fs.makeWrite w = fs.set (d ++ [n]) (.file w.2) := by rw [makeWrite, he]
    have hplain : (fs.makeWrite w).IsPlainTree := hstep ▸ hfs.set hd hn (by simp) hfile
    obtain ⟨hrest, hgrows⟩ := ih hplain fun x hx =>
      (hws x (List.mem_cons_of_mem _ hx)).makeWrite w (hws w (by simp))
    rw [makeWrites_cons]
    exact ⟨hrest, (hstep ▸ Grows.set hfile : fs.Grows (fs.makeWrite w)).trans hgrows⟩

end ContractBindings.FileSystem
