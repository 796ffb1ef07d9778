import ContractBindings.Proofs.Generate.Batch

/-!
# Running again

A second run over the same directory changes no file, whatever the extensions are.  Bindings may then
be found as artifacts, or artifacts be overwritten by bindings.

* `eq_of_shared_target`: two artifacts of one directory share a binding only if one is called `.x` and
  the other `.x.x`, and then only a binding of their own can take the place of one of them;
* `found_sublist`: the artifacts of the first run are found again, in the same order;
* `generate_again`: so the second run writes what is there already.
-/

set_option autoImplicit false

namespace ContractBindings.Generate

open Text ContractBindings.Path FileSystem Glob

variable {fs : FileSystem} {c : Config} {extension : String} {p : Path} {l : Location}
  {found : List Path}

/-! ## Artifacts that share a binding -/

/-- Two names with one extension and one stem: one of them is the dotted extension, the other one that
twice. -/
theorem eq_of_stem_eq {b b' e : Bytes} (hne : b ≠ b') (h : stem (b ++ dot :: e) = stem (b' ++ dot :: e)) :
    dot ∉ e ∧ (b = [] ∧ b' = dot :: e ∨ b = dot :: e ∧ b' = []) := by
  have hdot : dot ∉ e := by
    intro hdot
    -- a dotted extension stays in the stem in part, with all that is before it
    obtain ⟨u, v, rfl, hv⟩ := exists_last hdot
    have hassoc : ∀ x : Bytes, x ++ dot :: (u ++ dot :: v) = (x ++ dot :: u) ++ dot :: v := by simp
    rw [hassoc, hassoc, stem_append hv, stem_append hv, if_neg (by simp), if_neg (by simp)] at h
    exact hne (List.append_cancel_right h)
  refine ⟨hdot, ?_⟩
  rw [stem_append hdot, stem_append hdot] at h
  by_cases hb : b = [] <;> by_cases hb' : b' = []
  · exact absurd (hb.trans hb'.symm) hne
  · rw [if_pos hb, if_neg hb'] at h
    exact Or.inl ⟨hb, h.symm⟩
  · rw [if_neg hb, if_pos hb'] at h
    exact Or.inr ⟨h, hb'⟩
  · rw [if_neg hb, if_neg hb'] at h
    exact absurd h hne

/-- The last of two dots, if nothing else can be one. -/
theorem eq_of_append_dot {s f e e' : Bytes} (he : dot ∉ e) (he' : dot ∉ e')
    (h : s ++ dot :: f = e' ++ dot :: e) : s = e' ∧ f = e := by
  rcases List.append_eq_append_iff.mp h with ⟨x, hx, hf⟩ | ⟨x, hx, hf⟩
  · cases x with
    | nil => exact ⟨by simpa using hx.symm, (List.cons.inj hf).2⟩
    | cons y x =>
      refine absurd ?_ he'
      rw [hx, ← (List.cons.inj hf).1]
      simp
  · cases x with
    | nil => exact ⟨by simpa using hx, ((List.cons.inj hf).2).symm⟩
    | cons y x =>
      refine absurd ?_ he
      rw [(List.cons.inj hf).2]
      simp

/-- A name with an extension ends with its bytes, behind a dot. -/
theorem exists_bytes_of_hasExtension {n : Name} (h : HasExtension extension n) :
    ∃ b, n = b ++ dot :: encode extension := by
  obtain ⟨before, rfl⟩ := h
  refine ⟨encode before, ?_⟩
  rw [encode_append, encode_append, List.append_assoc]
  rfl

/-- **Where two artifacts share a binding, and the binding of some artifact takes the place of the
second, it is the shared one.** -/
theorem eq_of_shared_target {i n m : Name} (hn : HasExtension extension n)
    (hm : HasExtension extension m) (hne : n ≠ m) (hi : IsName i)
    (hshared : targetName c n = targetName c m) (hlost : targetName c i = m) :
    targetName c m = m := by
  obtain ⟨b, hb⟩ := exists_bytes_of_hasExtension hn
  obtain ⟨b', hb'⟩ := exists_bytes_of_hasExtension hm
  have hstem : stem n = stem m := List.append_cancel_right hshared
  generalize encode extension = e at hb hb'
  subst hb hb'
  have hbne : b ≠ b' := by rintro rfl; exact hne rfl
  obtain ⟨hdot, hcases⟩ := eq_of_stem_eq hbne hstem
  obtain ⟨x, xs, hx⟩ := List.exists_cons_of_ne_nil (stem_ne_nil hi.ne_nil)
  rw [targetName, hx, List.cons_append] at hlost
  rcases hcases with ⟨rfl, rfl⟩ | ⟨rfl, rfl⟩
  · -- the second is the dotted extension twice
    rw [List.cons_append, List.cons.injEq] at hlost
    obtain ⟨_, hext⟩ := eq_of_append_dot hdot hdot hlost.2
    rw [targetName, stem_append hdot, if_neg (by simp), hext]
  · -- the second is the dotted extension, which has no dot for another stem
    rw [List.nil_append, List.cons.injEq] at hlost
    refine absurd ?_ hdot
    rw [← hlost.2]
    simp

/-! ## The second run -/

variable {fs' : FileSystem} {found' : List Path}

/-- The artifacts of the first run are found again, in the same order. -/
theorem found_sublist (hfs : fs.IsPlainTree) (h : IsListing fs extension p l found)
    (hfs' : fs' = run fs (found.map (jobOf c fs))) (hrun : IsListing fs' extension p l found') :
    found.Sublist found' := by
  subst hfs'
  refine sublist_of_ordered h.ordered hrun.ordered fun q hq => ?_
  obtain ⟨before, n, rfl, hext, hb⟩ := (h.mem_iff q).mp hq
  obtain ⟨d, m, hart, _⟩ := exists_isArtifact hfs h hq
  obtain ⟨_, _, hkeep⟩ := (areArtifacts_of_isListing hfs h).run (c := c)
  have hfile := (hkeep _ d m hart).file
  have hloc := (denotes_spell hfs h.denotes (entryAt?_of_bytesAt? hb)).unique hart.denotes
  rw [← hloc] at hfile
  exact (hrun.mem_iff _).mpr ⟨before, n, rfl, hext, hfile⟩

/-- Different artifacts are different jobs. -/
theorem nodup_jobs (hfs : fs.IsPlainTree) (h : IsListing fs extension p l found) :
    (found.map (jobOf c fs)).Nodup := by
  refine h.nodup.map_on fun a ha a' ha' he => ?_
  obtain ⟨d, n, hart, _⟩ := exists_isArtifact hfs h ha
  obtain ⟨d', n', hart', _⟩ := exists_isArtifact hfs h ha'
  rw [hart.jobOf_eq, hart'.jobOf_eq] at he
  have hsource : d ++ [n] = d' ++ [n'] := congrArg Job.source he
  exact h.eq_of_denotes hfs ha ha' hart.denotes (hsource ▸ hart'.denotes)

/-- What is found in the second run only was written by the first one. -/
theorem effect?_of_new (hfs : fs.IsPlainTree) (h : IsListing fs extension p l found)
    (hfs' : fs' = run fs (found.map (jobOf c fs))) (hplain : fs'.IsPlainTree)
    (hrun : IsListing fs' extension p l found') {a : Path} (ha : a ∈ found') (hnew : a ∉ found) :
    (jobOf c fs' a).effect? fs' = none := by
  obtain ⟨before, n, rfl, hext, hb⟩ := (hrun.mem_iff a).mp ha
  have hbatch := isBatch_jobs (c := c) (areArtifacts_of_isListing hfs h)
  have hbatch' := isBatch_jobs (c := c) (areArtifacts_of_isListing hplain hrun)
  obtain ⟨d, m, hart, _⟩ := exists_isArtifact hplain hrun ha
  have hloc := (denotes_spell hplain hrun.denotes (entryAt?_of_bytesAt? hb)).unique hart.denotes
  refine effect?_of_isSpent hbatch' (List.mem_map_of_mem ha) ?_
  rw [hart.jobOf_eq, jobAt_append, ← hloc]
  rcases run_entry fs hbatch (l ++ (before ++ [n])) with hsame | ⟨_, hspent⟩
  · refine absurd ((h.mem_iff _).mpr ⟨before, n, rfl, hext, ?_⟩) hnew
    unfold bytesAt? at hb ⊢
    rw [hfs', hsame] at hb
    exact hb
  · rw [hfs']
    exact hspent

/-- Of two artifacts whose bindings take one place, neither loses its file to the binding of a third one,
unless it is its own. -/
theorem target_eq_source_of_shared (hfs : fs.IsPlainTree) (h : IsListing fs extension p l found)
    {a b b' : Path} (ha : a ∈ found) (hb : b ∈ found) (hb' : b' ∈ found)
    (hne : jobOf c fs b ≠ jobOf c fs b') {t : Location} (hjt : (jobOf c fs b).target = some t)
    (hkt : (jobOf c fs b').target = some t) (hlost : (jobOf c fs a).target = some (jobOf c fs b').source) :
    t = (jobOf c fs b').source := by
  obtain ⟨d, n, hart, _⟩ := exists_isArtifact hfs h ha
  obtain ⟨e, m, hartb, hext⟩ := exists_isArtifact hfs h hb
  obtain ⟨e', m', hartb', hext'⟩ := exists_isArtifact hfs h hb'
  rw [hartb.jobOf_eq] at hjt hne
  rw [hartb'.jobOf_eq] at hkt hne hlost ⊢
  rw [hart.jobOf_eq] at hlost
  have hjt' := (target_jobAt c e m hjt).1
  have hkt' := (target_jobAt c e' m' hkt).1
  have hlost' := (target_jobAt c d n hlost).1
  obtain ⟨rfl, hnames⟩ := List.append_inj' (hjt'.symm.trans hkt') rfl
  obtain ⟨_, htaken⟩ := List.append_inj' (hlost' : e ++ [m'] = d ++ [targetName c n]) rfl
  have hnm : m ≠ m' := by
    rintro rfl
    exact hne rfl
  have hsame := eq_of_shared_target (c := c) hext hext' hnm hart.name (List.cons.inj hnames).1
    (List.cons.inj htaken).1.symm
  rw [hkt', hsame]
  rfl

/-- **A second run over what is found then leaves every entry as it is.** -/
theorem run_again (hfs : fs.IsPlainTree) (h : IsListing fs extension p l found)
    (hfs' : fs' = run fs (found.map (jobOf c fs))) (hrun : IsListing fs' extension p l found')
    (k : Location) : (run fs' (found'.map (jobOf c fs'))).entryAt? k = fs'.entryAt? k := by
  obtain ⟨hplain, _, hkeep⟩ := (areArtifacts_of_isListing hfs h).run (c := c)
  rw [← hfs'] at hplain hkeep
  have hjobs : found.map (jobOf c fs) = found.map (jobOf c fs') := by
    refine List.map_congr_left fun a ha => ?_
    obtain ⟨d, n, hart, _⟩ := exists_isArtifact hfs h ha
    rw [hart.jobOf_eq, (hkeep a d n hart).jobOf_eq]
  have hsub := found_sublist hfs h hfs' hrun
  have hafter : run fs (found.map (jobOf c fs')) = fs' := by rw [← hjobs, hfs']
  have hagain := run_run fs (isBatch_jobs (c := c) (areArtifacts_of_isListing hplain hrun))
    (hsub.map (jobOf c fs')) (nodup_jobs hplain hrun) ?_ ?_ k
  · rw [hafter] at hagain
    exact hagain
  · intro j hj hnot
    obtain ⟨a, ha, rfl⟩ := List.mem_map.mp hj
    rw [hafter]
    exact effect?_of_new hfs h hfs' hplain hrun ha fun hold => hnot (List.mem_map_of_mem hold)
  · intro i hi j hj k hk hne t hjt hkt hlost
    obtain ⟨a, ha, rfl⟩ := List.mem_map.mp hi
    obtain ⟨b, hb, rfl⟩ := List.mem_map.mp hj
    obtain ⟨b', hb', rfl⟩ := List.mem_map.mp hk
    exact target_eq_source_of_shared hplain hrun (hsub.subset ha) (hsub.subset hb) (hsub.subset hb') hne
      hjt hkt hlost

/-! ## Whole runs -/

variable {s : Session}

/-- The files after a run are those after the jobs of the listing, if the directory is reached at all. -/
theorem generate_cases (hfs : s.files.IsPlainTree) (hdir : s.files.isDirectory c.artifacts = true)
    (hplain : IsPlainExtension c.artifactExtension) (hext : '/' ∉ c.bindingExtension.toList) :
    ∃ s' r, generate c .precompiled s = (s', .ok r) ∧
      (reached? s.files c.artifacts = none ∧ s'.files = s.files ∨
        ∃ p l found, reached? s.files c.artifacts = some p ∧
          IsListing s.files c.artifactExtension p l found ∧
          s'.files = run s.files (found.map (jobOf c s.files))) := by
  rcases filesBelow_cases hfs hplain c.artifacts with ⟨hr, hfound⟩ | ⟨p, l, found, hr, hfound, hlisting⟩
  · obtain ⟨s', hs', hfiles, hreport⟩ := generate_of_found hdir hfound
    exact ⟨_, _, Prod.ext rfl hreport, Or.inl ⟨hr, hfiles.trans hs'⟩⟩
  · obtain ⟨s', hs', hfiles, hreport⟩ := generate_of_found hdir hfound
    have hart := areArtifacts_of_isListing hfs hlisting
    rw [← hs'] at hart
    refine ⟨_, _, Prod.ext rfl hreport, Or.inr ⟨p, l, found, hr, hlisting, ?_⟩⟩
    rw [hfiles, bindAll_files hart hext, hs']

/--
**Running again changes nothing.**  In a tree without links, a second run right after the first one
leaves every entry as it is, whatever the extension of bindings is.
-/
theorem generate_again (hfs : s.files.IsPlainTree) (hdir : s.files.isDirectory c.artifacts = true)
    (hplain : IsPlainExtension c.artifactExtension) (hext : '/' ∉ c.bindingExtension.toList) :
    ∃ s₁ r₁ s₂ r₂, generate c .precompiled s = (s₁, .ok r₁) ∧
      generate c .precompiled s₁ = (s₂, .ok r₂) ∧
      (∀ l, s₂.files.entryAt? l = s₁.files.entryAt? l) ∧
      s₂.files.workingDirectory = s₁.files.workingDirectory := by
  obtain ⟨s₁, r₁, hfirst, ⟨hr, hfiles⟩ | ⟨p, l, found, hr, hlisting, hfiles⟩⟩ :=
    generate_cases hfs hdir hplain hext
  · obtain ⟨s₂, r₂, hsecond, ⟨_, hfiles'⟩ | ⟨p, l, found, hr', _, _⟩⟩ :=
      generate_cases (c := c) (s := s₁) (hfiles ▸ hfs) (hfiles ▸ hdir) hplain hext
    · exact ⟨s₁, r₁, s₂, r₂, hfirst, hsecond, fun l => by rw [hfiles'], by rw [hfiles']⟩
    · rw [hfiles, hr] at hr'
      cases hr'
  · obtain ⟨hplain₁, hgrows, _⟩ := (areArtifacts_of_isListing hfs hlisting).run (c := c)
    rw [← hfiles] at hplain₁ hgrows
    have hdir₁ : s₁.files.isDirectory c.artifacts = true := by
      obtain ⟨m, hm, hd⟩ := isDirectory_iff.mp hdir
      exact isDirectory_iff.mpr ⟨m, hm.mono hfs hplain₁ hgrows, hgrows.directory m hd⟩
    have hr₁ : reached? s₁.files c.artifacts = some p := spelled?_mono hfs hplain₁ hgrows hr
    obtain ⟨s₂, r₂, hsecond, ⟨hr', _⟩ | ⟨p', l', found', hr', hlisting', hfiles'⟩⟩ :=
      generate_cases (c := c) (s := s₁) hplain₁ hdir₁ hplain hext
    · rw [hr₁] at hr'
      cases hr'
    · rw [hr₁] at hr'
      cases hr'
      have hl := (hlisting.denotes.mono hfs hplain₁ hgrows).unique hlisting'.denotes
      subst hl
      refine ⟨s₁, r₁, s₂, r₂, hfirst, hsecond, fun k => ?_, ?_⟩
      · rw [hfiles']
        exact run_again hfs hlisting hfiles hlisting' k
      · rw [hfiles', workingDirectory_run]

/-- Bindings that are artifacts by their extension: the first run writes over what it has read. -/
def overlappingConfig : Config := { sampleConfig with bindingExtension := "json" }

theorem generate_again_overlapping :
    ∃ s₁ r₁ s₂ r₂, generate overlappingConfig .precompiled sampleSession = (s₁, .ok r₁) ∧
      generate overlappingConfig .precompiled s₁ = (s₂, .ok r₂) ∧
      (∀ l, s₂.files.entryAt? l = s₁.files.entryAt? l) ∧
      s₂.files.workingDirectory = s₁.files.workingDirectory :=
  generate_again isPlainTree_sample isDirectory_sample (by decide)
    (by decide)

end ContractBindings.Generate
