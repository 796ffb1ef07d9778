import ContractBindings.Proofs.FileSystem.Writes

/-!
# Runs of jobs

A job reads one file and may write another one.  A run does jobs one by one, each in the tree that those
before left behind.

* `IsBatch`: what is written is of no use to any job of the batch;
* `run_entry`: so an entry stays as it was, or becomes useless;
* `effect?_run`: and a job finds what it would have found at the start, or nothing;
* `run_eq_makeWrites`: if nothing useful is overwritten (`IsSteady`), a run makes the writes that could be
  foretold at the start, and the last one at a location counts (`entryAt?_run_of_isSteady`);
* `run_run`: running the jobs again, with new ones that find nothing, changes nothing, if jobs that
  write to one place do not lose their sources to others.
-/

set_option autoImplicit false

namespace ContractBindings.Generate

open Text FileSystem

/-- A file to read, a place to write to if there is one, and what to write. -/
structure Job where
  source : Location
  target : Option Location
  make : Bytes → Option Bytes

variable {fs : FileSystem} {js : List Job}

/-- What a job writes, and where: nothing over a directory. -/
def Job.effect? (fs : FileSystem) (j : Job) : Option (Location × Bytes) :=
  match j.target with
  | none => none
  | some l => if fs.isDirectoryAt l then none else ((fs.bytesAt? j.source).bind j.make).map (l, ·)

def runJob (fs : FileSystem) (j : Job) : FileSystem := (j.effect? fs).elim fs (makeWrite fs)

def run (fs : FileSystem) (js : List Job) : FileSystem := js.foldl runJob fs

/-- What is written is useless to all jobs. -/
structure IsBatch (js : List Job) (useless : Bytes → Prop) : Prop where
  target_ne_nil : ∀ j ∈ js, j.target ≠ some []
  made : ∀ j ∈ js, ∀ b b', j.make b = some b' → useless b'
  make_eq_none : ∀ j ∈ js, ∀ b, useless b → j.make b = none

/-- A file of no use. -/
def IsSpent (useless : Bytes → Prop) (fs : FileSystem) (l : Location) : Prop :=
  ∃ b, fs.entryAt? l = some (.file b) ∧ useless b

theorem Job.effect?_eq_some_iff {j : Job} {l : Location} {b : Bytes} :
    j.effect? fs = some (l, b) ↔ j.target = some l ∧ fs.isDirectoryAt l = false ∧
      ∃ text, fs.bytesAt? j.source = some text ∧ j.make text = some b := by
  unfold effect?
  cases ht : j.target with
  | none => simp
  | some k =>
    simp only
    cases hd : fs.isDirectoryAt k with
    | true => simp; rintro rfl; simp [hd]
    | false =>
      simp only [Bool.false_eq_true, if_false, Option.map_eq_some_iff, Option.bind_eq_some_iff,
        Prod.mk.injEq, Option.some.injEq]
      constructor
      · rintro ⟨_, ⟨text, hb, hm⟩, rfl, rfl⟩
        exact ⟨rfl, hd, text, hb, hm⟩
      · rintro ⟨rfl, _, text, hb, hm⟩
        exact ⟨b, ⟨text, hb, hm⟩, rfl, rfl⟩

theorem run_nil (fs : FileSystem) : run fs [] = fs := rfl

theorem run_cons (fs : FileSystem) (j : Job) (js : List Job) : run fs (j :: js) = run (runJob fs j) js :=
  rfl

theorem run_append (fs : FileSystem) (is js : List Job) : run fs (is ++ js) = run (run fs is) js :=
  List.foldl_append

/-- A job does nothing, or writes one file where no directory stands. -/
theorem runJob_cases (fs : FileSystem) (j : Job) :
    (j.effect? fs = none ∧ runJob fs j = fs) ∨
      ∃ l b, j.effect? fs = some (l, b) ∧ j.target = some l ∧ fs.isDirectoryAt l = false ∧
        runJob fs j = fs.set l (.file b) := by
  cases he : j.effect? fs with
  | none => exact Or.inl ⟨rfl, by simp [runJob, he]⟩
  | some w =>
    obtain ⟨l, b⟩ := w
    obtain ⟨ht, hd, _⟩ := Job.effect?_eq_some_iff.mp he
    exact Or.inr ⟨l, b, rfl, ht, hd, by simp [runJob, he, makeWrite]⟩

section Batch

variable {useless : Bytes → Prop}

theorem IsBatch.subset (h : IsBatch js useless) {is : List Job} (hsub : is ⊆ js) : IsBatch is useless :=
  ⟨fun j hj => h.target_ne_nil j (hsub hj), fun j hj => h.made j (hsub hj),
    fun j hj => h.make_eq_none j (hsub hj)⟩

theorem IsBatch.tail {j : Job} (h : IsBatch (j :: js) useless) : IsBatch js useless :=
  h.subset (List.subset_cons_self j js)

theorem isDirectoryAt_runJob (h : IsBatch js useless) {j : Job} (hj : j ∈ js) (l : Location) :
    (runJob fs j).isDirectoryAt l = fs.isDirectoryAt l := by
  rcases runJob_cases fs j with ⟨_, hr⟩ | ⟨k, b, _, ht, hd, hr⟩
  · rw [hr]
  · rw [hr]
    have hk : k ≠ [] := fun e => h.target_ne_nil j hj (e ▸ ht)
    unfold isDirectoryAt at hd ⊢
    rw [entryAt?_set hk]
    split
    · rename_i hl; subst hl; rw [hd]; rfl
    · rfl

/-- Directories stay where they are. -/
theorem isDirectoryAt_run (h : IsBatch js useless) (l : Location) :
    (run fs js).isDirectoryAt l = fs.isDirectoryAt l := by
  induction js generalizing fs with
  | nil => rfl
  | cons j js ih => rw [run_cons, ih h.tail, isDirectoryAt_runJob h (by simp)]

theorem workingDirectory_run (fs : FileSystem) (js : List Job) :
    (run fs js).workingDirectory = fs.workingDirectory := by
  induction js generalizing fs with
  | nil => rfl
  | cons j js ih =>
    rw [run_cons, ih]
    rcases runJob_cases fs j with ⟨_, hr⟩ | ⟨_, _, _, _, _, hr⟩ <;> rw [hr]
    rfl

/-- After one job an entry is what it was, or the useless file that the job wrote there. -/
theorem runJob_entry (fs : FileSystem) (h : IsBatch js useless) {j : Job} (hj : j ∈ js) (l : Location) :
    (runJob fs j).entryAt? l = fs.entryAt? l ∨
      (∃ b, j.effect? fs = some (l, b)) ∧ IsSpent useless (runJob fs j) l := by
  rcases runJob_cases fs j with ⟨_, hr⟩ | ⟨k, b, he, ht, hd, hr⟩
  · left; rw [hr]
  · have hk : k ≠ [] := fun e => h.target_ne_nil j hj (e ▸ ht)
    by_cases hl : l = k
    · subst hl
      obtain ⟨_, _, text, _, hm⟩ := Job.effect?_eq_some_iff.mp he
      refine Or.inr ⟨⟨b, he⟩, b, ?_, h.made j hj text b hm⟩
      rw [hr, entryAt?_set hk, if_pos rfl]
    · left
      rw [hr, entryAt?_set hk, if_neg hl]

/-- What is of no use stays so. -/
theorem IsSpent.run (h : IsBatch js useless) {l : Location} (hl : IsSpent useless fs l) :
    IsSpent useless (Generate.run fs js) l := by
  induction js generalizing fs with
  | nil => exact hl
  | cons j js ih =>
    rw [run_cons]
    refine ih h.tail ?_
    rcases runJob_entry fs h (j := j) (by simp) l with he | ⟨_, he⟩
    · obtain ⟨b, hb, hu⟩ := hl
      exact ⟨b, he.trans hb, hu⟩
    · exact he

/-- **An entry stays as it was, or some job of the run wrote a useless file there.** -/
theorem run_entry (fs : FileSystem) (h : IsBatch js useless) (l : Location) :
    (run fs js).entryAt? l = fs.entryAt? l ∨
      (∃ is j ks b, js = is ++ j :: ks ∧ j.effect? (run fs is) = some (l, b)) ∧
        IsSpent useless (run fs js) l := by
  induction js generalizing fs with
  | nil => left; rfl
  | cons j js ih =>
    rw [run_cons]
    rcases ih (runJob fs j) h.tail with hsame | ⟨⟨is, k, ks, b, rfl, he⟩, hspent⟩
    · rcases runJob_entry fs h (j := j) (by simp) l with he | ⟨⟨b, he⟩, hspent⟩
      · exact Or.inl (hsame.trans he)
      · exact Or.inr ⟨⟨[], j, js, b, rfl, he⟩, hspent.run h.tail⟩
    · exact Or.inr ⟨⟨j :: is, k, ks, b, rfl, he⟩, hspent⟩

theorem effect?_of_isSpent (h : IsBatch js useless) {j : Job} (hj : j ∈ js)
    (hs : IsSpent useless fs j.source) : j.effect? fs = none := by
  obtain ⟨b, hb, hu⟩ := hs
  rw [Option.eq_none_iff_forall_ne_some]
  rintro ⟨l, b'⟩ he
  obtain ⟨_, _, text, ht, hm⟩ := Job.effect?_eq_some_iff.mp he
  have hbytes : fs.bytesAt? j.source = some b := by simp [bytesAt?, hb]
  rw [hbytes] at ht
  cases ht
  rw [h.make_eq_none j hj b hu] at hm
  cases hm

theorem effect?_congr {fs' : FileSystem} {j : Job}
    (hd : ∀ l, fs'.isDirectoryAt l = fs.isDirectoryAt l)
    (he : fs'.entryAt? j.source = fs.entryAt? j.source) : j.effect? fs' = j.effect? fs := by
  unfold Job.effect? bytesAt?
  simp only [hd, he]

/-- **A job finds what it would have found before a run**, or something of no use that the run wrote. -/
theorem effect?_run (fs : FileSystem) (h : IsBatch js useless) {is : List Job} (his : is ⊆ js)
    {j : Job} (hj : j ∈ js) :
    j.effect? (run fs is) = j.effect? fs ∨
      j.effect? (run fs is) = none ∧
        ∃ before i after b, is = before ++ i :: after ∧
          i.effect? (run fs before) = some (j.source, b) := by
  rcases run_entry fs (h.subset his) j.source with hsame | ⟨hwrite, hspent⟩
  · exact Or.inl (effect?_congr (isDirectoryAt_run (h.subset his)) hsame)
  · obtain ⟨before, i, after, b, hsplit, he⟩ := hwrite
    exact Or.inr ⟨effect?_of_isSpent h hj hspent, before, i, after, b, hsplit, he⟩

end Batch

/-! ## Steady runs -/

/-- No job of the batch that has an effect at the start writes over a file that another one would use. -/
def IsSteady (fs : FileSystem) (js : List Job) : Prop :=
  ∀ i ∈ js, ∀ j ∈ js, ∀ b, i.effect? fs = some (j.source, b) → j.effect? fs = none

/-- The writes that can be foretold. -/
def writes (fs : FileSystem) (js : List Job) : List (Location × Bytes) := js.filterMap (·.effect? fs)

section Batch

variable {useless : Bytes → Prop}

/-- In a steady run every job has the effect that it would have at the start. -/
theorem IsSteady.effect?_run (h : IsBatch js useless) (hs : IsSteady fs js) {is : List Job}
    (his : is ⊆ js) {j : Job} (hj : j ∈ js) : j.effect? (run fs is) = j.effect? fs := by
  induction hn : is.length using Nat.strongRecOn generalizing is j with
  | ind n ih =>
    rcases Generate.effect?_run fs h his hj with he | ⟨hnone, before, k, after, b, rfl, hk⟩
    · exact he
    · -- whoever wrote over the source could be foretold to do so
      have hk' : k.effect? fs = some (j.source, b) := by
        rw [← ih before.length (by rw [← hn]; simp)
          (fun x hx => his (List.mem_append_left _ hx)) (his (by simp)) rfl]
        exact hk
      rw [hnone, hs k (his (by simp)) j hj b hk']

/-- **A steady run makes the writes that could be foretold.** -/
theorem run_eq_makeWrites (h : IsBatch js useless) (hs : IsSteady fs js) {is : List Job}
    (his : is ⊆ js) : run fs is = makeWrites fs (writes fs is) := by
  induction is using List.reverseRecOn with
  | nil => rfl
  | append_singleton is j ih =>
    have hsub : is ⊆ js := fun k hk => his (List.mem_append_left _ hk)
    have hj : j ∈ js := his (by simp)
    rw [run_append, run_cons, run_nil, runJob, hs.effect?_run h hsub hj, ih hsub]
    unfold writes makeWrites
    rw [List.filterMap_append, List.foldl_append]
    cases he : j.effect? fs <;> simp [he]

theorem target_of_mem_writes (h : IsBatch js useless) {w : Location × Bytes} (hw : w ∈ writes fs js) :
    w.1 ≠ [] := by
  obtain ⟨j, hj, he⟩ := List.mem_filterMap.mp hw
  obtain ⟨ht, _⟩ := Job.effect?_eq_some_iff.mp (he : j.effect? fs = some (w.1, w.2))
  exact fun hnil => h.target_ne_nil j hj (hnil ▸ ht)

theorem entryAt?_run_of_isSteady (h : IsBatch js useless) (hs : IsSteady fs js) (l : Location) :
    (run fs js).entryAt? l =
      (((writes fs js).filter fun w => w.1 = l).getLast?).elim (fs.entryAt? l)
        fun w => some (.file w.2) := by
  rw [run_eq_makeWrites h hs (List.Subset.refl js),
    entryAt?_makeWrites fun w hw => target_of_mem_writes h hw]

/-! ## Running again -/

/-- A job with an effect after a run had the same effect when its turn was in the run. -/
theorem effect?_of_effect?_run (h : IsBatch js useless) {before after : List Job} {j : Job}
    (hjs : js = before ++ j :: after) {w : Location × Bytes} (hw : j.effect? (run fs js) = some w) :
    j.effect? (run fs before) = some w := by
  subst hjs
  rw [run_append] at hw
  have hsub : j :: after ⊆ before ++ j :: after := List.subset_append_right _ _
  rcases effect?_run (run fs before) h hsub (j := j) (by simp) with he | ⟨hnone, _⟩
  · rw [← he, hw]
  · rw [hnone] at hw
    cases hw

theorem entryAt?_runJob_self (h : IsBatch js useless) {j : Job} (hj : j ∈ js) {l : Location} {b : Bytes}
    (hw : j.effect? fs = some (l, b)) : (runJob fs j).entryAt? l = some (.file b) := by
  have ht := (Job.effect?_eq_some_iff.mp hw).1
  rw [runJob, hw]
  exact (entryAt?_set (fun e => h.target_ne_nil j hj (e ▸ ht)) _ _).trans (if_pos rfl)

/-- A place that a job of a run wrote to is of no use after the run. -/
theorem isSpent_run (h : IsBatch js useless) {before after : List Job} {j : Job}
    (hjs : js = before ++ j :: after) {l : Location} {b : Bytes}
    (hw : j.effect? (run fs before) = some (l, b)) : IsSpent useless (run fs js) l := by
  subst hjs
  have hafter : IsBatch after useless := h.subset fun k hk => by simp [hk]
  have hj : j ∈ before ++ j :: after := by simp
  obtain ⟨_, _, text, _, hm⟩ := Job.effect?_eq_some_iff.mp hw
  rw [run_append, run_cons]
  exact IsSpent.run hafter ⟨b, entryAt?_runJob_self h hj hw, h.made j hj text b hm⟩

/-- The last write to a place is due to a job that no other one with such a write follows. -/
theorem exists_last_writer {l : Location} {w : Location × Bytes}
    (hw : ((writes fs js).filter fun w => w.1 = l).getLast? = some w) :
    ∃ before k after, js = before ++ k :: after ∧ k.effect? fs = some (l, w.2) ∧
      ∀ j ∈ after, ∀ b, j.effect? fs ≠ some (l, b) := by
  induction js using List.reverseRecOn with
  | nil => cases hw
  | append_singleton js j ih =>
    by_cases hj : ∃ b, j.effect? fs = some (l, b)
    · obtain ⟨b, hb⟩ := hj
      have hlast : w = (l, b) := by
        simpa [writes, List.filterMap_append, hb, List.filter_append] using hw.symm
      exact ⟨js, j, [], rfl, by rw [hlast]; exact hb, by simp⟩
    · have hnot : ((writes fs [j]).filter fun w => w.1 = l) = [] := by
        rw [List.filter_eq_nil_iff]
        intro x hx
        obtain ⟨k, hk, he⟩ := List.mem_filterMap.mp hx
        rw [List.mem_singleton.mp hk] at he
        simp only [decide_eq_true_eq]
        rintro rfl
        exact hj ⟨x.2, he⟩
      have hsplit : writes fs (js ++ [j]) = writes fs js ++ writes fs [j] := List.filterMap_append
      rw [hsplit, List.filter_append, hnot, List.append_nil] at hw
      obtain ⟨before, k, after, hjs, hk, hlater⟩ := ih hw
      refine ⟨before, k, after ++ [j], by rw [hjs]; simp, hk, ?_⟩
      intro i hi b hb
      rcases List.mem_append.mp hi with hi | hi
      · exact hlater i hi b hb
      · rw [List.mem_singleton.mp hi] at hb
        exact hj ⟨b, hb⟩

theorem split_of_sublist {α : Type} {xs before after : List α} {x : α}
    (hsub : xs.Sublist (before ++ x :: after)) (hnodup : (before ++ x :: after).Nodup) (hx : x ∈ xs) :
    ∃ front back, xs = front ++ x :: back ∧ back ⊆ after := by
  obtain ⟨front, back, rfl, hfront, hback⟩ := List.sublist_append_iff.mp hsub
  obtain ⟨_, hmiddle, hdisjoint⟩ := List.nodup_append.mp hnodup
  have hnot : x ∉ front := fun hm => hdisjoint x (hfront.subset hm) x (by simp) rfl
  have hmem : x ∈ back := (List.mem_append.mp hx).resolve_left hnot
  rcases List.sublist_cons_iff.mp hback with hback | ⟨rest, rfl, hrest⟩
  · exact absurd (hback.subset hmem) (List.nodup_cons.mp hmiddle).1
  · exact ⟨front, rest, rfl, hrest.subset⟩

/-- After a run, its jobs are steady together with new ones that find nothing: what was written is of no
use. -/
theorem isSteady_run (h : IsBatch js useless) {is : List Job} (hsub : is ⊆ js)
    (hnew : ∀ j ∈ js, j ∉ is → j.effect? (run fs is) = none) : IsSteady (run fs is) js := by
  intro i hi j hj b hw
  have his : i ∈ is := by
    by_contra hnot
    rw [hnew i hi hnot] at hw
    cases hw
  obtain ⟨before, after, hsplit⟩ := List.append_of_mem his
  have hold : IsBatch is useless := h.subset hsub
  exact effect?_of_isSpent h hj (isSpent_run hold hsplit (effect?_of_effect?_run hold hsplit hw))

/--
A job `j` that wrote to the place `l` after another job `k` did so would write there again after the run.
It could only have lost its source to a job that writes to `l` too; but then `k` took it away before.
-/
theorem effect?_run_of_rewritten (h : IsBatch js useless) {before mid tail : List Job} {k j : Job}
    (hjs : js = before ++ k :: (mid ++ j :: tail)) {l : Location} {b b' : Bytes}
    (hk : k.effect? (run fs before) = some (l, b))
    (hj : j.effect? (run (runJob (run fs before) k) mid) = some (l, b'))
    (hlost : ∀ i ∈ js, i.target = some j.source → l = j.source) :
    j.effect? (run fs js) = some (l, b') := by
  have hstate : run fs js = run (run (runJob (run fs before) k) mid) (j :: tail) := by
    rw [hjs, run_append, run_cons, run_append]
  have hkmem : k ∈ js := by rw [hjs]; simp
  have hjmem : j ∈ js := by rw [hjs]; simp
  have hmid : mid ⊆ js := fun x hx => by rw [hjs]; simp [hx]
  have htail : j :: tail ⊆ js := fun x hx => by
    rw [hjs]; simp only [List.mem_append, List.mem_cons] at hx ⊢; tauto
  rw [hstate]
  rcases effect?_run (run (runJob (run fs before) k) mid) h htail hjmem with
    he | ⟨_, front, i, back, b'', hsplit, hi⟩
  · rw [he, hj]
  · exfalso
    have himem : i ∈ js := htail (by rw [hsplit]; simp)
    have hl := hlost i himem (Job.effect?_eq_some_iff.mp hi).1
    obtain ⟨_, _, text, _, hmake⟩ := Job.effect?_eq_some_iff.mp hk
    have hspent : IsSpent useless (runJob (run fs before) k) l :=
      ⟨b, entryAt?_runJob_self h hkmem hk, h.made k hkmem text b hmake⟩
    have hgone : IsSpent useless (run (runJob (run fs before) k) mid) j.source :=
      hl ▸ hspent.run (h.subset hmid)
    rw [effect?_of_isSpent h hjmem hgone] at hj
    cases hj

/-- What the last job that still writes to a place would write there is there already. -/
theorem entryAt?_run_of_last (h : IsBatch js useless) (hnodup : js.Nodup) {before after : List Job}
    {k : Job} (hjs : js = before ++ k :: after) {l : Location} {b : Bytes}
    (hk : k.effect? (run fs js) = some (l, b))
    (hlast : ∀ j ∈ after, ∀ b', j.effect? (run fs js) ≠ some (l, b'))
    (hlost : ∀ i ∈ js, ∀ j ∈ js, k ≠ j → j.target = some l → i.target = some j.source →
      l = j.source) :
    (run fs js).entryAt? l = some (.file b) := by
  have hturn := effect?_of_effect?_run h hjs hk
  have hwrote := entryAt?_runJob_self h (by rw [hjs]; simp) hturn
  have hafter : IsBatch after useless := h.subset fun j hj => by rw [hjs]; simp [hj]
  have hstate : run fs js = run (runJob (run fs before) k) after := by rw [hjs, run_append, run_cons]
  rw [hstate]
  rcases run_entry (runJob (run fs before) k) hafter l with hsame | ⟨⟨mid, j, tail, b', rfl, hj⟩, _⟩
  · rw [hsame, hwrote]
  · exfalso
    have hne : k ≠ j := by
      rintro rfl
      rw [hjs] at hnodup
      exact (List.nodup_cons.mp (List.nodup_append.mp hnodup).2.1).1 (by simp)
    have hjmem : j ∈ js := by rw [hjs]; simp
    have hagain := effect?_run_of_rewritten h hjs hturn hj fun i hi hi' =>
      hlost i hi j hjmem hne (Job.effect?_eq_some_iff.mp hj).1 hi'
    exact hlast j (by simp) b' hagain

/--
**Running again changes nothing.**  The second run may have more jobs, if they find nothing; and of two
jobs that write to one place, none may lose its source to a third one.
-/
theorem run_run (fs : FileSystem) {is : List Job} (h : IsBatch js useless) (hsub : is.Sublist js)
    (hnodup : js.Nodup) (hnew : ∀ j ∈ js, j ∉ is → j.effect? (run fs is) = none)
    (hshared : ∀ i ∈ is, ∀ j ∈ is, ∀ k ∈ is, j ≠ k → ∀ l, j.target = some l → k.target = some l →
      i.target = some k.source → l = k.source) (l : Location) :
    (run (run fs is) js).entryAt? l = (run fs is).entryAt? l := by
  rw [entryAt?_run_of_isSteady h (isSteady_run h hsub.subset hnew)]
  cases hwrites : ((writes (run fs is) js).filter fun w => w.1 = l).getLast? with
  | none => rfl
  | some w =>
    -- the last job `k` that writes to `l` again is the last such one of the first run
    obtain ⟨before', k, after', rfl, hk, hlater⟩ := exists_last_writer hwrites
    have hkis : k ∈ is := by
      by_contra hnot
      rw [hnew k (by simp) hnot] at hk
      cases hk
    obtain ⟨before, after, hsplit, hafter⟩ := split_of_sublist hsub hnodup hkis
    have hfile := entryAt?_run_of_last (h.subset hsub.subset) (hsub.nodup hnodup) hsplit hk
      (fun j hj => hlater j (hafter hj))
      (fun i hi j hj hne hjl => hshared i hi k hkis j hj hne l (Job.effect?_eq_some_iff.mp hk).1 hjl)
    exact hfile.symm

end Batch

end ContractBindings.Generate
