import ContractBindings.Proofs.FileSystem.Links

/-!
# Parts of a walk through links

A walk can be cut anywhere, also where it goes through links: what is left of it is a walk from some
location, with fewer links that may be entered.  `Arrives` keeps account of both.

* `exists_arrives`, `Trail.split`: a walk to an entry arrives there, and any walk arrives somewhere along its
  first steps;
* `Arrives.walk_append`: it goes on from where its first steps arrive;
* `Arrives.append`, `Arrives.split`, `Arrives.unique`: so it has parts, in one way;
* `exists_leads`, `Leads.join`: a path to an entry leads there with some links left, and a name that is joined
  to it is one step further;
* `exists_opens_of_join`, `Arrives.eq_or_link`: so a path with a name at its end leads from a directory to the
  entry of this name, unless that is a link.
-/

set_option autoImplicit false

namespace ContractBindings.FileSystem

open ContractBindings.Path

variable {fs : FileSystem} {k k' k'' : Nat} {l l' l'' m : Location} {step : Step} {n : Name}
  {rest xs ys more : List Step} {follow : Bool} {spot : Spot}

/-! ## Where a walk arrives -/

/-- A walk arrives at a location, and may enter some links more. -/
inductive Arrives (fs : FileSystem) : Nat → Location → List Step → Nat → Location → Prop where
  | nil (k : Nat) (l : Location) : Arrives fs k l [] k l
  | stay {k k' : Nat} {l l' : Location} {step : Step} {rest : List Step}
    (h : step = .here ∨ step = .slash) (hl : fs.isDirectoryAt l = true)
    (hrest : Arrives fs k l rest k' l') : Arrives fs k l (step :: rest) k' l'
  | up {k k' : Nat} {l l' : Location} {rest : List Step} (hl : fs.isDirectoryAt l = true)
    (hrest : Arrives fs k l.dropLast rest k' l') : Arrives fs k l (.up :: rest) k' l'
  | down {k k' : Nat} {l l' : Location} {n : Name} {rest : List Step}
    (hl : fs.isDirectoryAt l = true) (hgoal : fs.IsGoal (l ++ [n]))
    (hrest : Arrives fs k (l ++ [n]) rest k' l') : Arrives fs k l (.down n :: rest) k' l'
  /-- Behind a link the steps of its target come first. -/
  | link {k k' : Nat} {l l' : Location} {n : Name} {t : Path} {rest : List Step}
    (hl : fs.isDirectoryAt l = true) (ht : fs.entryAt? (l ++ [n]) = some (.link t))
    (hrest : Arrives fs k (if t.isAbsolute then [] else l) (t.steps ++ rest) k' l') :
    Arrives fs (k + 1) l (.down n :: rest) k' l'

theorem not_isGoal_link {fs : FileSystem} {l : Location} {t : Path} (ht : fs.entryAt? l = some (.link t)) : ¬ fs.IsGoal l := by
  rintro ⟨e, he, hlink⟩
  rw [ht] at he
  cases he
  cases hlink

/-- **A walk to an entry arrives there.** -/
theorem exists_arrives (h : fs.walk true k l xs = .ok (.found m)) : ∃ k', fs.Arrives k l xs k' m := by
  have htrail := trail_of_walk h
  clear h
  generalize hspot : Spot.found m = spot at htrail
  induction htrail with
  | nil k l =>
    cases hspot
    exact ⟨k, .nil k m⟩
  | stay hstep hl _ ih => exact (ih hspot).imp fun _ => .stay hstep hl
  | up hl _ ih => exact (ih hspot).imp fun _ => .up hl
  | down hl hgoal _ ih => exact (ih hspot).imp fun _ => .down hl hgoal
  | link hl ht _ _ ih => exact (ih hspot).imp fun _ => .link hl ht
  | atLink _ _ hfollow => cases hfollow
  | vacant => cases hspot

/-- **A walk arrives somewhere along its first steps**, if what follows is more than slashes. -/
theorem Trail.split (h : fs.Trail follow k l (xs ++ step :: ys) spot) (hstep : step ≠ .slash) :
    ∃ k' l', fs.Arrives k l xs k' l' ∧ fs.Trail follow k' l' (step :: ys) spot := by
  generalize hsteps : xs ++ step :: ys = steps at h
  induction h generalizing xs with
  | nil => simp at hsteps
  | @stay k l _ _ _ hstay hl hrest ih =>
    rcases List.append_eq_cons_iff.mp hsteps with ⟨rfl, hfirst⟩ | ⟨xs', rfl, rfl⟩
    · exact hfirst ▸ ⟨k, l, .nil k l, .stay hstay hl hrest⟩
    · obtain ⟨k', l', harrives, htrail⟩ := ih rfl
      exact ⟨k', l', .stay hstay hl harrives, htrail⟩
  | @up k l _ _ hl hrest ih =>
    rcases List.append_eq_cons_iff.mp hsteps with ⟨rfl, hfirst⟩ | ⟨xs', rfl, rfl⟩
    · exact hfirst ▸ ⟨k, l, .nil k l, .up hl hrest⟩
    · obtain ⟨k', l', harrives, htrail⟩ := ih rfl
      exact ⟨k', l', .up hl harrives, htrail⟩
  | @down k l _ _ _ hl hgoal hrest ih =>
    rcases List.append_eq_cons_iff.mp hsteps with ⟨rfl, hfirst⟩ | ⟨xs', rfl, rfl⟩
    · exact hfirst ▸ ⟨k, l, .nil k l, .down hl hgoal hrest⟩
    · obtain ⟨k', l', harrives, htrail⟩ := ih rfl
      exact ⟨k', l', .down hl hgoal harrives, htrail⟩
  | @link k l _ _ _ _ hl ht hgo hrest ih =>
    rcases List.append_eq_cons_iff.mp hsteps with ⟨rfl, hfirst⟩ | ⟨xs', rfl, rfl⟩
    · exact hfirst ▸ ⟨k + 1, l, .nil _ l, .link hl ht hgo hrest⟩
    · obtain ⟨k', l', harrives, htrail⟩ := ih (List.append_assoc ..)
      exact ⟨k', l', .link hl ht harrives, htrail⟩
  | @atLink k l n _ hl ht hfollow =>
    rcases List.append_eq_cons_iff.mp hsteps with ⟨rfl, hfirst⟩ | ⟨xs', _, hnil⟩
    · exact hfirst ▸ ⟨k, l, .nil k l, .atLink hl ht hfollow⟩
    · simp at hnil
  | @vacant k l n rest hl hnone hslashes =>
    rcases List.append_eq_cons_iff.mp hsteps with ⟨rfl, hfirst⟩ | ⟨xs', rfl, rfl⟩
    · exact hfirst ▸ ⟨k, l, .nil k l, .vacant hl hnone hslashes⟩
    · -- the next step would have to be a slash
      simp [hstep] at hslashes

namespace Arrives

/-- **A walk goes on from where its first steps arrive.**  A link at the end is entered only if links are
followed or something does follow. -/
theorem walk_append (h : fs.Arrives k l xs k' l') (hgo : follow = true ∨ more ≠ []) :
    fs.walk follow k l (xs ++ more) = fs.walk follow k' l' more := by
  induction h with
  | nil => rfl
  | stay hstep hl _ ih => rw [List.cons_append, walk_stay hstep hl, ih]
  | up hl _ ih => rw [List.cons_append, walk_up hl, ih]
  | down hl hgoal _ ih => rw [List.cons_append, walk_down hl hgoal, ih]
  | link hl ht _ ih =>
    rw [List.cons_append, walk_link hl ht (hgo.imp_right (by simp +contextual)), ← List.append_assoc, ih]

theorem walk_eq (h : fs.Arrives k l xs k' l') : fs.walk true k l xs = .ok (.found l') := by
  have hend : fs.walk true k l (xs ++ []) = fs.walk true k' l' [] := h.walk_append (.inl rfl)
  rw [List.append_nil] at hend
  rw [hend]
  cases k' <;> rfl

theorem append (h : fs.Arrives k l xs k' l') (h' : fs.Arrives k' l' ys k'' l'') :
    fs.Arrives k l (xs ++ ys) k'' l'' := by
  induction h with
  | nil => exact h'
  | stay hstep hl _ ih => exact .stay hstep hl (ih h')
  | up hl _ ih => exact .up hl (ih h')
  | down hl hgoal _ ih => exact .down hl hgoal (ih h')
  | link hl ht _ ih =>
    rw [List.cons_append]
    refine .link hl ht ?_
    rw [← List.append_assoc]
    exact ih h'

/-- **A walk arrives somewhere along its first steps.** -/
theorem split (h : fs.Arrives k l (xs ++ ys) k'' l'') :
    ∃ k' l', fs.Arrives k l xs k' l' ∧ fs.Arrives k' l' ys k'' l'' := by
  generalize hsteps : xs ++ ys = steps at h
  induction h generalizing xs with
  | nil k l =>
    obtain ⟨rfl, rfl⟩ := List.append_eq_nil_iff.mp hsteps
    exact ⟨k, l, .nil k l, .nil k l⟩
  | @stay k k'' l l'' step rest hstep hl hrest ih =>
    rcases List.append_eq_cons_iff.mp hsteps with ⟨rfl, rfl⟩ | ⟨xs', rfl, rfl⟩
    · exact ⟨k, l, .nil k l, .stay hstep hl hrest⟩
    · obtain ⟨k', l', hxs, hys⟩ := ih rfl
      exact ⟨k', l', .stay hstep hl hxs, hys⟩
  | @up k k'' l l'' rest hl hrest ih =>
    rcases List.append_eq_cons_iff.mp hsteps with ⟨rfl, rfl⟩ | ⟨xs', rfl, rfl⟩
    · exact ⟨k, l, .nil k l, .up hl hrest⟩
    · obtain ⟨k', l', hxs, hys⟩ := ih rfl
      exact ⟨k', l', .up hl hxs, hys⟩
  | @down k k'' l l'' n rest hl hgoal hrest ih =>
    rcases List.append_eq_cons_iff.mp hsteps with ⟨rfl, rfl⟩ | ⟨xs', rfl, rfl⟩
    · exact ⟨k, l, .nil k l, .down hl hgoal hrest⟩
    · obtain ⟨k', l', hxs, hys⟩ := ih rfl
      exact ⟨k', l', .down hl hgoal hxs, hys⟩
  | @link k k'' l l'' n t rest hl ht hrest ih =>
    rcases List.append_eq_cons_iff.mp hsteps with ⟨rfl, rfl⟩ | ⟨xs', rfl, rfl⟩
    · exact ⟨k + 1, l, .nil _ l, .link hl ht hrest⟩
    · obtain ⟨k', l', hxs, hys⟩ := ih (List.append_assoc _ _ _)
      exact ⟨k', l', .link hl ht hxs, hys⟩

/-- A walk arrives at one location only, with one number of links left. -/
theorem unique (h : fs.Arrives k l xs k' l') (h' : fs.Arrives k l xs k'' l'') : k' = k'' ∧ l' = l'' := by
  induction h with
  | nil => cases h'; exact ⟨rfl, rfl⟩
  | stay hstep hl _ ih =>
    cases h' with
    | stay _ _ hrest => exact ih hrest
    | up _ _ => rcases hstep with h | h <;> cases h
    | down _ _ _ => rcases hstep with h | h <;> cases h
    | link _ _ _ => rcases hstep with h | h <;> cases h
  | up hl _ ih =>
    cases h' with
    | stay hstep _ _ => rcases hstep with h | h <;> cases h
    | up _ hrest => exact ih hrest
  | down hl hgoal _ ih =>
    cases h' with
    | stay hstep _ _ => rcases hstep with h | h <;> cases h
    | down _ _ hrest => exact ih hrest
    | link _ ht _ => exact absurd hgoal (not_isGoal_link ht)
  | link hl ht _ ih =>
    cases h' with
    | stay hstep _ _ => rcases hstep with h | h <;> cases h
    | down _ hgoal _ => exact absurd hgoal (not_isGoal_link ht)
    | link _ ht' hrest =>
      rw [ht] at ht'
      cases ht'
      exact ih hrest

/-- Silent pieces lead nowhere. -/
theorem silent (k : Nat) (hl : fs.isDirectoryAt l = true) {pieces : List Text.Bytes}
    (h : ∀ s ∈ pieces, isSilent s = true) : fs.Arrives k l (pieces.map stepOfPiece) k l := by
  induction pieces with
  | nil => exact .nil k l
  | cons piece rest ih =>
    exact .stay (stepOfPiece_of_isSilent (h piece (by simp))) hl
      (ih fun s hs => h s (List.mem_cons_of_mem _ hs))

/-- A walk goes on from directories only. -/
theorem isDirectoryAt (h : fs.Arrives k l (step :: rest) k' l') : fs.isDirectoryAt l = true := by
  cases h <;> assumption

/-- One step leads to an entry, also if links are not followed. -/
theorem exists_found (hfs : fs.IsNested) (h : fs.Arrives k l [step] k' l') :
    ∃ m, fs.walk false k l [step] = .ok (.found m) ∧ fs.entryAt? m ≠ none := by
  have hend : ∀ m, fs.walk false k m [] = .ok (.found m) := by
    intro m
    cases k <;> rfl
  have hdirectory : ∀ m, fs.isDirectoryAt m = true → fs.entryAt? m ≠ none := by
    intro m hm
    simp [isDirectoryAt_iff.mp hm]
  cases h with
  | stay hstep hl _ => exact ⟨l, by rw [walk_stay hstep hl, hend], hdirectory l hl⟩
  | up hl _ => exact ⟨l.dropLast, by rw [walk_up hl, hend], hdirectory _ (hfs.dropLast hl)⟩
  | @down _ _ _ _ n _ hl hgoal _ =>
    obtain ⟨e, he, _⟩ := hgoal
    exact ⟨l ++ [n], by rw [walk_down hl ⟨e, he, ‹_›⟩, hend], by simp [he]⟩
  | @link j _ _ _ n t _ hl ht _ =>
    exact ⟨l ++ [n], walk_link_end hl ht, by simp [ht]⟩

/-- A step to a name ends at the entry of this name, or there is a link. -/
theorem eq_or_link (h : fs.Arrives k l [.down n] k' l') :
    l' = l ++ [n] ∨ ∃ t, fs.entryAt? (l ++ [n]) = some (.link t) := by
  cases h with
  | stay hstep _ _ => rcases hstep with h | h <;> cases h
  | down _ _ hrest => cases hrest; exact .inl rfl
  | link _ ht _ => exact .inr ⟨_, ht⟩

end Arrives

/-! ## Where a path leads -/

/--
A path leads to a location, from where so many links may be entered.  What is joined to the path takes the
place of an empty piece at its end.
-/
structure Leads (fs : FileSystem) (p : Path) (k : Nat) (l : Location) : Prop where
  no_nul : (0 : UInt8) ∉ p.bytes
  ne_nil : p.bytes ≠ []
  arrives : ∃ ps, (p.pieces = ps ∨ p.pieces = ps ++ [[]]) ∧
    (∀ n, separator ∉ n → (p.join ⟨n⟩).pieces = ps ++ [n]) ∧
    fs.Arrives maxLinks (fs.origin p) (ps.map stepOfPiece) k l

theorem origin_join {p : Path} (hp : p.bytes ≠ []) (hn : separator ∉ n) :
    fs.origin (p.join ⟨n⟩) = fs.origin p := by
  unfold origin
  rw [isAbsolute_join hp hn]

/-- **A path to an entry leads there**, with some number of links left. -/
theorem exists_leads {p : Path} (h : fs.Denotes p l) : ∃ k, fs.Leads p k l := by
  obtain ⟨ps, _, hpieces, hj⟩ := pieces_join h.ne_nil
  obtain ⟨k, harrives⟩ := exists_arrives (walk_of_locate h)
  rw [steps] at harrives
  rcases hpieces with hp | hp
  · rw [hp] at harrives
    exact ⟨k, h.no_nul, h.ne_nil, ps, .inl hp, hj, harrives⟩
  · -- the slash at the end leads nowhere
    rw [hp, List.map_append] at harrives
    obtain ⟨k', l', hfront, hslash⟩ := harrives.split
    have hsame : fs.Arrives k' l' [.slash] k' l' := .stay (.inr rfl) hslash.isDirectoryAt (.nil k' l')
    obtain ⟨rfl, rfl⟩ := hslash.unique hsame
    exact ⟨k, h.no_nul, h.ne_nil, ps, .inr hp, hj, hfront⟩

namespace Leads

variable {p : Path}

/-- A path leads to one location only, with one number of links left. -/
theorem unique (h : fs.Leads p k l) (h' : fs.Leads p k' l') : k = k' ∧ l = l' := by
  obtain ⟨ps, _, hj, harrives⟩ := h.arrives
  obtain ⟨ps', _, hj', harrives'⟩ := h'.arrives
  have hpieces := (hj [] (by simp)).symm.trans (hj' [] (by simp))
  rw [List.append_cancel_right hpieces] at harrives
  exact harrives.unique harrives'

/-- A directory is where all steps of the path arrive. -/
theorem arrives_steps (h : fs.Leads p k l) (hl : fs.isDirectoryAt l = true) :
    fs.Arrives maxLinks (fs.origin p) p.steps k l := by
  obtain ⟨ps, hpieces, _, harrives⟩ := h.arrives
  rw [steps]
  rcases hpieces with hp | hp
  · rw [hp]
    exact harrives
  · rw [hp, List.map_append]
    exact harrives.append (.stay (.inr rfl) hl (.nil k l))

theorem denotes (h : fs.Leads p k l) (hl : fs.isDirectoryAt l = true) : fs.Denotes p l := by
  rw [Denotes, locate_eq_walk h.no_nul h.ne_nil]
  exact (h.arrives_steps hl).walk_eq

variable (h : fs.Leads p k l) (hn : separator ∉ n) (h0 : (0 : UInt8) ∉ n)
include h hn h0

theorem no_nul_join : (0 : UInt8) ∉ (p.join ⟨n⟩).bytes := by
  rw [mem_bytes_join h.ne_nil hn (by decide), not_or]
  exact ⟨h.no_nul, h0⟩

/-- **What is joined to a path is walked from where the path leads.** -/
theorem locate_join (follow : Bool) :
    fs.locate follow (p.join ⟨n⟩) = fs.walk follow k l [stepOfPiece n] := by
  obtain ⟨ps, _, hj, harrives⟩ := h.arrives
  rw [locate_eq_walk (h.no_nul_join hn h0) (join_ne_nil h.ne_nil hn), steps, hj n hn, List.map_append,
    origin_join h.ne_nil hn]
  exact harrives.walk_append (.inr (by simp))

/-- A path with a name at its end leads where the step to this name arrives. -/
theorem join (hstep : fs.Arrives k l [stepOfPiece n] k' l') : fs.Leads (p.join ⟨n⟩) k' l' := by
  obtain ⟨ps, _, hj, harrives⟩ := h.arrives
  have hjoined := join_ne_nil h.ne_nil hn
  obtain ⟨qs, _, hpieces, hmore⟩ := pieces_join hjoined
  refine ⟨h.no_nul_join hn h0, hjoined, qs, hpieces, hmore, ?_⟩
  rw [hj n hn] at hpieces
  rw [origin_join h.ne_nil hn]
  rcases hpieces with hqs | hqs
  · rw [← hqs, List.map_append]
    exact harrives.append hstep
  · -- an empty name is a slash at the end
    obtain ⟨rfl, hempty⟩ := List.append_inj' hqs rfl
    obtain rfl : n = [] := (List.cons.inj hempty).1
    have hsame : fs.Arrives k l [.slash] k l := .stay (.inr rfl) hstep.isDirectoryAt (.nil k l)
    obtain ⟨rfl, rfl⟩ := hstep.unique hsame
    exact harrives

end Leads

/-- A path of silent pieces leads to where it starts, and no link is entered. -/
theorem leads_of_silent (hfs : fs.IsNested) {p : Path} (h0 : (0 : UInt8) ∉ p.bytes) (hp : p.bytes ≠ [])
    (h : ∀ s ∈ p.pieces, isSilent s = true) : fs.Leads p maxLinks (fs.origin p) := by
  obtain ⟨ps, _, hpieces, hj⟩ := pieces_join hp
  refine ⟨h0, hp, ps, hpieces, hj, .silent _ ?_ fun s hs => h s ?_⟩
  · unfold origin
    split
    · exact isDirectoryAt_nil
    · exact hfs.start
  · rcases hpieces with he | he <;> rw [he]
    · exact hs
    · exact List.mem_append_left _ hs

/-- What a name is joined to leads to the directory of the entry, or of the link, that has this name. -/
theorem exists_leads_of_join {p : Path} (hp : p.bytes ≠ []) (hn : separator ∉ n)
    (h : fs.Denotes (p.join ⟨n⟩) m) :
    ∃ k l, fs.Leads p k l ∧ fs.isDirectoryAt l = true ∧ ∃ k', fs.Arrives k l [stepOfPiece n] k' m := by
  obtain ⟨ps, _, hpieces, hj⟩ := pieces_join hp
  have hnul : (0 : UInt8) ∉ p.bytes ∧ (0 : UInt8) ∉ n := by
    rw [← not_or, ← mem_bytes_join hp hn (by decide)]
    exact h.no_nul
  obtain ⟨k', harrives⟩ := exists_arrives (walk_of_locate h)
  rw [steps, hj n hn, List.map_append, origin_join hp hn] at harrives
  obtain ⟨k, l, hfront, hlast⟩ := harrives.split
  exact ⟨k, l, ⟨hnul.1, hp, ps, hpieces, hj, hfront⟩, hlast.isDirectoryAt, k', hlast⟩

/-- Where what is joined to a path is looked up: where the path leads, or where relative paths start if the
path is empty. -/
def Opens (fs : FileSystem) (p : Path) (k : Nat) (l : Location) : Prop :=
  if p.isEmpty then k = maxLinks ∧ l = fs.workingDirectory else fs.Leads p k l

/-- **What is joined to a path is looked up in a directory.** -/
theorem exists_opens_of_join {p : Path} (hn : separator ∉ n) (h : fs.Denotes (p.join ⟨n⟩) m) :
    ∃ k l, fs.Opens p k l ∧ fs.isDirectoryAt l = true ∧ ∃ k', fs.Arrives k l [stepOfPiece n] k' m := by
  unfold Opens
  cases hempty : p.isEmpty with
  | true =>
    have hjoin : p.join ⟨n⟩ = ⟨n⟩ := by simp [Path.join, isAbsolute_mk hn, hempty]
    have horigin : fs.origin ⟨n⟩ = fs.workingDirectory := by simp [origin, isAbsolute_mk hn]
    rw [hjoin] at h
    obtain ⟨k', harrives⟩ := exists_arrives (walk_of_locate h)
    rw [steps, pieces_mk hn, List.map_singleton, horigin] at harrives
    exact ⟨maxLinks, fs.workingDirectory, ⟨rfl, rfl⟩, harrives.isDirectoryAt, k', harrives⟩
  | false =>
    have hp : p.bytes ≠ [] := by simpa [isEmpty] using hempty
    exact exists_leads_of_join hp hn h

end ContractBindings.FileSystem
