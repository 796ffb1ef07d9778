import ContractBindings.FileSystem.Access
import ContractBindings.Proofs.FileSystem.FileName

/-!
# Walking in trees without links

`IsPlainTree` are the file systems that a disk without symbolic links holds: every entry stands in a
directory, once, and under a name that can be spelled.  There a walk is a plain recursion (`route`):

* `locate_eq_route`: a path denotes what the walk along its steps reaches;
* `route_append`: a walk goes on where its first part ended;
* `locate_join`, `locate_withFileName`: so a name joined to the path of a directory, or put in the place
  of a file's name, denotes the entry of that name beside or below.
-/

set_option autoImplicit false

namespace ContractBindings.FileSystem

open Text ContractBindings.Path

/-- Every entry stands in a directory, and relative paths start in one. -/
structure IsNested (fs : FileSystem) : Prop where
  above : ∀ l n, fs.entryAt? (l ++ [n]) ≠ none → fs.isDirectoryAt l = true
  start : fs.isDirectoryAt fs.workingDirectory = true

/-- Every entry stands in a directory, no two at one location, and can be named in a path. -/
structure IsTree (fs : FileSystem) : Prop where
  distinct : (fs.entries.map Prod.fst).Nodup
  above : ∀ l n, fs.entryAt? (l ++ [n]) ≠ none → fs.isDirectoryAt l = true
  named : ∀ l n, fs.entryAt? (l ++ [n]) ≠ none → IsName n
  start : fs.isDirectoryAt fs.workingDirectory = true

theorem IsTree.isNested {fs : FileSystem} (h : fs.IsTree) : fs.IsNested := ⟨h.above, h.start⟩

/-- A tree without symbolic links. -/
structure IsPlainTree (fs : FileSystem) : Prop extends IsTree fs where
  noLink : ∀ l t, fs.entryAt? l ≠ some (.link t)

/-- A walk that enters no link. -/
def route (fs : FileSystem) (l : Location) (steps : List Step) : Except IoError Spot :=
  fs.walk true 0 l steps

/-- Where a path starts. -/
def origin (fs : FileSystem) (p : Path) : Location :=
  if p.isAbsolute then [] else fs.workingDirectory

/-- Whether a path leads to an entry. -/
def Denotes (fs : FileSystem) (p : Path) (l : Location) : Prop := fs.locate true p = .ok (.found l)

variable {fs : FileSystem}

theorem isDirectoryAt_iff {l : Location} :
    fs.isDirectoryAt l = true ↔ fs.entryAt? l = some .directory := by
  simp [isDirectoryAt]

theorem isDirectoryAt_nil : fs.isDirectoryAt [] = true := by simp [isDirectoryAt, entryAt?]

theorem origin_congr {fs' : FileSystem} (h : fs'.workingDirectory = fs.workingDirectory) (p : Path) :
    fs'.origin p = fs.origin p := by
  rw [origin, origin, h]

/-- A path is walked along from where it starts, unless it is empty or holds a zero. -/
theorem locate_eq_walk {p : Path} (h0 : (0 : UInt8) ∉ p.bytes) (hp : p.bytes ≠ []) (follow : Bool) :
    fs.locate follow p = fs.walk follow maxLinks (fs.origin p) p.steps := by
  have h0' : p.bytes.contains 0 = false := by simpa using h0
  simp only [locate, h0', isEmpty, List.isEmpty_iff, hp, if_false, origin, Bool.false_eq_true]

theorem locate_eq_ok_iff {follow : Bool} {p : Path} {spot : Spot} :
    fs.locate follow p = .ok spot ↔ (0 : UInt8) ∉ p.bytes ∧ p.bytes ≠ [] ∧
      fs.walk follow maxLinks (fs.origin p) p.steps = .ok spot := by
  by_cases h0 : (0 : UInt8) ∈ p.bytes
  · simp [locate, h0]
  by_cases hp : p.bytes = []
  · simp [locate, isEmpty, hp]
  · rw [locate_eq_walk h0 hp]
    simp [h0, hp]

theorem walk_of_locate {follow : Bool} {p : Path} {spot : Spot} (h : fs.locate follow p = .ok spot) :
    fs.walk follow maxLinks (fs.origin p) p.steps = .ok spot := (locate_eq_ok_iff.mp h).2.2

/-! ## Steps -/

@[simp] theorem route_nil (l : Location) : fs.route l [] = .ok (.found l) := rfl

/-- A step that leads nowhere, for the two ways to spell one. -/
theorem route_stay {l : Location} {step : Step} (h : step = .here ∨ step = .slash) (rest : List Step) :
    fs.route l (step :: rest) = if fs.isDirectoryAt l then fs.route l rest else .error .notDirectory := by
  cases hd : fs.isDirectoryAt l <;> rcases h with rfl | rfl <;> simp [route, walk, walkFrom, hd]

theorem route_up (l : Location) (rest : List Step) :
    fs.route l (.up :: rest) =
      if fs.isDirectoryAt l then fs.route l.dropLast rest else .error .notDirectory := by
  cases hd : fs.isDirectoryAt l <;> simp [route, walk, walkFrom, hd]

theorem route_down_none {l : Location} {n : Name} (hl : fs.isDirectoryAt l = true)
    (h : fs.entryAt? (l ++ [n]) = none) (rest : List Step) :
    fs.route l (.down n :: rest) =
      if rest.all (· == .slash) then .ok (.vacant (l ++ [n]) (!rest.isEmpty))
      else .error .notFound := by
  simp [route, walk, walkFrom, hl, h]

theorem route_down_some (hfs : fs.IsPlainTree) {l : Location} {n : Name}
    (h : fs.entryAt? (l ++ [n]) ≠ none) (rest : List Step) :
    fs.route l (.down n :: rest) = fs.route (l ++ [n]) rest := by
  have hl := hfs.above l n h
  obtain ⟨e, he⟩ := Option.ne_none_iff_exists'.mp h
  cases e with
  | link t => exact absurd he (hfs.noLink _ t)
  | directory => simp [route, walk, walkFrom, hl, he]
  | file c => simp [route, walk, walkFrom, hl, he]
  | program p => simp [route, walk, walkFrom, hl, he]

theorem route_of_not_directory {l : Location} (h : fs.isDirectoryAt l = false) (step : Step)
    (rest : List Step) : fs.route l (step :: rest) = .error .notDirectory := by
  simp [route, walk, walkFrom, h]

/-- A walk goes on from directories only. -/
theorem isDirectoryAt_of_route {l : Location} {step : Step} {rest : List Step} {spot : Spot}
    (h : fs.route l (step :: rest) = .ok spot) : fs.isDirectoryAt l = true := by
  by_contra hd
  rw [route_of_not_directory (by simpa using hd)] at h
  cases h

theorem eq_of_route_down (hfs : fs.IsPlainTree) {l k : Location} {n : Name}
    (h : fs.route l [.down n] = .ok (.found k)) : k = l ++ [n] ∧ fs.entryAt? k ≠ none := by
  have hl := isDirectoryAt_of_route h
  cases he : fs.entryAt? (l ++ [n]) with
  | none => rw [route_down_none hl he] at h; cases h
  | some e =>
    rw [route_down_some hfs (by simp [he])] at h
    cases h
    exact ⟨rfl, by simp [he]⟩

/-- Without links it does not matter how many may be entered. -/
theorem walkFrom_eq_route (hfs : fs.IsPlainTree) (follow : Bool)
    (jump : Location → List Step → Except IoError Spot) (l : Location) (steps : List Step) :
    walkFrom fs follow jump l steps = fs.route l steps := by
  induction steps generalizing l with
  | nil => rfl
  | cons step rest ih =>
    cases hd : fs.isDirectoryAt l with
    | false => rw [route_of_not_directory hd]; simp [walkFrom, hd]
    | true =>
      cases step with
      | here => rw [route_stay (.inl rfl), if_pos hd, ← ih]; simp [walkFrom, hd]
      | slash => rw [route_stay (.inr rfl), if_pos hd, ← ih]; simp [walkFrom, hd]
      | up => rw [route_up, if_pos hd, ← ih]; simp [walkFrom, hd]
      | down n =>
        cases he : fs.entryAt? (l ++ [n]) with
        | none => rw [route_down_none hd he]; simp [walkFrom, hd, he]
        | some e =>
          rw [route_down_some hfs (by simp [he]), ← ih]
          cases e with
          | link t => exact absurd he (hfs.noLink _ t)
          | directory => simp [walkFrom, hd, he]
          | file c => simp [walkFrom, hd, he]
          | program p => simp [walkFrom, hd, he]

theorem locate_eq_route (hfs : fs.IsPlainTree) (follow : Bool) {p : Path} (h0 : (0 : UInt8) ∉ p.bytes)
    (hp : p.bytes ≠ []) : fs.locate follow p = fs.route (fs.origin p) p.steps := by
  rw [locate_eq_walk h0 hp]
  exact walkFrom_eq_route hfs _ _ _ _

/-! ## Parts of a walk -/

/-- The location after one step from a directory, if the step leads to an entry. -/
theorem route_cons_found (hfs : fs.IsPlainTree) {l k : Location} {step : Step} {rest : List Step}
    (h : fs.route l (step :: rest) = .ok (.found k)) :
    ∃ m, fs.route l [step] = .ok (.found m) ∧ fs.route m rest = .ok (.found k) ∧
      ∀ more, fs.route l (step :: more) = fs.route m more := by
  have hd := isDirectoryAt_of_route h
  have stay : ∀ m, (∀ more, fs.route l (step :: more) = fs.route m more) →
      ∃ m, fs.route l [step] = .ok (.found m) ∧ fs.route m rest = .ok (.found k) ∧
        ∀ more, fs.route l (step :: more) = fs.route m more :=
    fun m hm => ⟨m, by rw [hm]; rfl, by rw [← hm]; exact h, hm⟩
  cases step with
  | here => exact stay l fun more => by rw [route_stay (.inl rfl), if_pos hd]
  | slash => exact stay l fun more => by rw [route_stay (.inr rfl), if_pos hd]
  | up => exact stay l.dropLast fun more => by rw [route_up, if_pos hd]
  | down n =>
    cases he : fs.entryAt? (l ++ [n]) with
    | none => rw [route_down_none hd he] at h; split at h <;> cases h
    | some e => exact stay (l ++ [n]) fun more => route_down_some hfs (by simp [he]) more

/-- A walk goes on where its first part ended. -/
theorem route_append (hfs : fs.IsPlainTree) {l m : Location} {xs : List Step}
    (h : fs.route l xs = .ok (.found m)) (ys : List Step) : fs.route l (xs ++ ys) = fs.route m ys := by
  induction xs generalizing l with
  | nil => cases h; rfl
  | cons step rest ih =>
    obtain ⟨k, _, hr, hgo⟩ := route_cons_found hfs h
    rw [List.cons_append, hgo, ih hr]

theorem route_append_found (hfs : fs.IsPlainTree) {l k : Location} {xs ys : List Step}
    (h : fs.route l (xs ++ ys) = .ok (.found k)) :
    ∃ m, fs.route l xs = .ok (.found m) ∧ fs.route m ys = .ok (.found k) := by
  induction xs generalizing l with
  | nil => exact ⟨l, rfl, h⟩
  | cons step rest ih =>
    obtain ⟨m, _, hr, hgo⟩ := route_cons_found hfs h
    obtain ⟨m', hm, hk⟩ := ih hr
    exact ⟨m', by rw [hgo, hm], hk⟩

/-- What is above an entry exists. -/
theorem entryAt?_dropLast (hfs : fs.IsTree) {l : Location} (h : fs.entryAt? l ≠ none) :
    fs.entryAt? l.dropLast ≠ none := by
  rcases List.eq_nil_or_concat l with rfl | ⟨init, n, rfl⟩
  · simpa using h
  · rw [List.concat_eq_append] at h ⊢
    have := isDirectoryAt_iff.mp (hfs.above init n h)
    simp [this]

theorem entryAt?_of_route (hfs : fs.IsPlainTree) {l m : Location} {steps : List Step}
    (hl : fs.entryAt? l ≠ none) (h : fs.route l steps = .ok (.found m)) : fs.entryAt? m ≠ none := by
  induction steps generalizing l with
  | nil => cases h; exact hl
  | cons step rest ih =>
    obtain ⟨k, hk, hr, _⟩ := route_cons_found hfs h
    have hd := isDirectoryAt_of_route h
    refine ih ?_ hr
    cases step with
    | here => rw [route_stay (.inl rfl), if_pos hd] at hk; cases hk; exact hl
    | slash => rw [route_stay (.inr rfl), if_pos hd] at hk; cases hk; exact hl
    | up => rw [route_up, if_pos hd] at hk; cases hk; exact entryAt?_dropLast hfs.toIsTree hl
    | down n => exact (eq_of_route_down hfs hk).2

theorem stepOfPiece_of_isSilent {piece : Bytes} (h : isSilent piece = true) :
    stepOfPiece piece = .here ∨ stepOfPiece piece = .slash := by
  rcases isSilent_iff.mp h with rfl | rfl
  · right; rfl
  · left; rfl

/-- Silent pieces lead nowhere. -/
theorem route_silent {l : Location} (hl : fs.isDirectoryAt l = true) {pieces : List Bytes}
    (h : ∀ s ∈ pieces, isSilent s = true) (more : List Step) :
    fs.route l (pieces.map stepOfPiece ++ more) = fs.route l more := by
  induction pieces with
  | nil => rfl
  | cons piece rest ih =>
    have hstep := stepOfPiece_of_isSilent (h piece (by simp))
    rw [List.map_cons, List.cons_append, route_stay hstep, if_pos hl]
    exact ih fun s hs => h s (List.mem_cons_of_mem _ hs)

theorem stepOfPiece_of_isName {n : Name} (h : IsName n) : stepOfPiece n = .down n := by
  simp [stepOfPiece, h.ne_nil, h.ne_dot, h.ne_dots]

/-! ## Paths -/

namespace Denotes

theorem no_nul {p : Path} {l : Location} (h : fs.Denotes p l) : (0 : UInt8) ∉ p.bytes :=
  (locate_eq_ok_iff.mp h).1

theorem ne_nil {p : Path} {l : Location} (h : fs.Denotes p l) : p.bytes ≠ [] := (locate_eq_ok_iff.mp h).2.1

theorem route_eq (hfs : fs.IsPlainTree) {p : Path} {l : Location} (h : fs.Denotes p l) :
    fs.route (fs.origin p) p.steps = .ok (.found l) := by
  rw [← locate_eq_route hfs true h.no_nul h.ne_nil]; exact h

theorem entryAt? (hfs : fs.IsPlainTree) {p : Path} {l : Location} (h : fs.Denotes p l) :
    fs.entryAt? l ≠ none := by
  refine entryAt?_of_route hfs ?_ (h.route_eq hfs)
  unfold origin
  split
  · simp [FileSystem.entryAt?]
  · simp [isDirectoryAt_iff.mp hfs.start]

theorem unique {p : Path} {l m : Location} (h : fs.Denotes p l) (h' : fs.Denotes p m) : l = m := by
  unfold Denotes at h h'
  rw [h] at h'
  cases h'
  rfl

end Denotes

/-- The current directory is where relative paths start. -/
theorem denotes_current (hfs : fs.IsPlainTree) : fs.Denotes Path.current fs.workingDirectory := by
  have hhere : Path.current.steps = [.here] := rfl
  rw [Denotes, locate_eq_route hfs true (by decide) (by decide), hhere, route_stay (.inl rfl)]
  exact if_pos hfs.start

theorem denotes_root (hfs : fs.IsPlainTree) : fs.Denotes Path.root [] := by
  have hslashes : Path.root.steps = [.slash, .slash] := rfl
  have htop : fs.origin Path.root = [] := rfl
  rw [Denotes, locate_eq_route hfs true (by decide) (by decide), hslashes, htop,
    route_stay (.inr rfl), if_pos isDirectoryAt_nil]
  exact (route_stay (.inr rfl) []).trans (if_pos isDirectoryAt_nil)

/-- **A name joined to the path of a directory is one step from there.** -/
theorem locate_join (hfs : fs.IsPlainTree) {p : Path} {l : Location} (h : fs.Denotes p l) {n : Bytes}
    (hn : separator ∉ n) (h0 : (0 : UInt8) ∉ n) (follow : Bool) :
    fs.locate follow (p.join ⟨n⟩) = fs.route l [stepOfPiece n] := by
  have hp := h.ne_nil
  have h0' : (0 : UInt8) ∉ (p.join ⟨n⟩).bytes := by
    rw [mem_bytes_join hp hn (by decide), not_or]; exact ⟨h.no_nul, h0⟩
  have ho : fs.origin (p.join ⟨n⟩) = fs.origin p := by
    unfold origin; rw [isAbsolute_join hp hn]
  rw [locate_eq_route hfs follow h0' (join_ne_nil hp hn), ho]
  obtain ⟨ps, _, hps, hj⟩ := pieces_join hp
  have hfound : fs.route (fs.origin p) (ps.map stepOfPiece) = .ok (.found l) := by
    have hr := h.route_eq hfs
    rcases hps with hps | hps <;> rw [steps, hps] at hr
    · exact hr
    · -- the empty piece behind a slash at the end stays in the directory
      rw [List.map_append] at hr
      obtain ⟨m, hm, hk⟩ := route_append_found hfs hr
      have hstay : stepOfPiece [] = .here ∨ stepOfPiece [] = .slash := .inr rfl
      rw [List.map_singleton, route_stay hstay] at hk
      split at hk
      · cases hk; exact hm
      · cases hk
  rw [steps, hj n hn, List.map_append, route_append hfs hfound]
  rfl

/-- An entry of a directory is denoted by its name joined to a path of the directory. -/
theorem Denotes.join (hfs : fs.IsPlainTree) {p : Path} {l : Location} (h : fs.Denotes p l) {n : Name}
    (hn : IsName n) (he : fs.entryAt? (l ++ [n]) ≠ none) : fs.Denotes (p.join ⟨n⟩) (l ++ [n]) := by
  rw [Denotes, locate_join hfs h hn.no_separator hn.no_nul, stepOfPiece_of_isName hn,
    route_down_some hfs he, route_nil]

/-- **Another file name leads to an entry beside the old one.** -/
theorem locate_withFileName (hfs : fs.IsPlainTree) {p : Path} {d : Location} {ps : List Bytes}
    {n m : Name} (hp : p.pieces = ps ++ [n]) (hn : IsName n) (h : fs.Denotes p (d ++ [n]))
    (hm : separator ∉ m) (hm0 : (0 : UInt8) ∉ m) (hne : m ≠ []) (follow : Bool) :
    fs.locate follow (p.withFileName ⟨m⟩) = fs.route d [stepOfPiece m] := by
  have ho : fs.origin (p.withFileName ⟨m⟩) = fs.origin p := by
    unfold origin; rw [isAbsolute_withFileName hp hn hm]
  rw [locate_eq_route hfs follow (no_nul_withFileName hp hn hm h.no_nul hm0)
    (withFileName_ne_nil hp hn hm hne), ho]
  obtain ⟨kept, silent, hsplit, hall, _, hw⟩ := pieces_withFileName hp hn hm
  have hd : fs.isDirectoryAt d = true := hfs.above d n (h.entryAt? hfs)
  have hkept : fs.route (fs.origin p) (kept.map stepOfPiece) = .ok (.found d) := by
    have hr := h.route_eq hfs
    rw [steps, hp, List.map_append, List.map_singleton, stepOfPiece_of_isName hn] at hr
    obtain ⟨d', hd', hlast⟩ := route_append_found hfs hr
    have he : d' = d := by
      simpa using (eq_of_route_down hfs hlast).1.symm
    subst he
    rw [hsplit, List.map_append] at hd'
    obtain ⟨k, hk, hs⟩ := route_append_found hfs hd'
    cases silent with
    | nil => cases hs; exact hk
    | cons s silent =>
      have hdir := isDirectoryAt_of_route hs
      have := route_silent hdir hall []
      rw [List.append_nil, hs] at this
      cases this
      exact hk
  rw [steps, hw, List.map_append, route_append hfs hkept]
  rfl

end ContractBindings.FileSystem
