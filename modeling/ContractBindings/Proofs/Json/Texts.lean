import ContractBindings.Proofs.Json.Locality

/-!
# Texts of objects and arrays

Two texts of an object are alike if they have the same keys and the texts of their values are related; so
are two texts of an array.  What a reader of the one reads then decides what it reads of the other.

* `Spells`: a text is that of a value, with the blanks around it;
* `ObjectText`, `ArrayText`: pairs of texts of an object or an array, made of texts of its values;
* `Reads`: from what is read of the first text it follows what is read of the second, within any text;
* `ObjectText.reads`, `ArrayText.reads`: it is so for containers if it is so for what they hold;
* `Covers`: what a reader reads it reads from a text of some kind; `covers_objectOf`, `covers_arrayOf`.
-/

set_option autoImplicit false

namespace ContractBindings.Json

open Reader

/-- The text has nothing but blanks. -/
def AreBlanks (b : List Char) : Prop := ∀ c ∈ b, isBlank c = true

/-- The text is that of a value. -/
def Spells (t : List Char) (v : Json) : Prop := parse (String.ofList t) = .ok v

/-! ## Texts of containers -/

section Texts

variable (R : String → List Char → List Char → Prop)

/-- Two texts of the members behind another one, with their keys: the texts of the values are related. -/
inductive MoreMembersText : List String → List Char → List Char → Prop where
  | nil : MoreMembersText [] [] []
  | cons {k : String} {ks : List String} {key t t' u u' : List Char} (hkey : Spells key (.string k))
    (h : R k t t') (hrest : MoreMembersText ks u u') :
    MoreMembersText (k :: ks) (',' :: (key ++ ':' :: (t ++ u))) (',' :: (key ++ ':' :: (t' ++ u')))

/-- Two texts of an object with these keys: the texts of its values are related. -/
inductive ObjectText : List String → List Char → List Char → Prop where
  | empty {a b c : List Char} (ha : AreBlanks a) (hb : AreBlanks b) (hc : AreBlanks c) :
    ObjectText [] (a ++ '\x7b' :: (b ++ '\x7d' :: c)) (a ++ '\x7b' :: (b ++ '\x7d' :: c))
  | members {k : String} {ks : List String} {a c key t t' u u' : List Char} (ha : AreBlanks a)
    (hc : AreBlanks c) (hkey : Spells key (.string k)) (h : R k t t') (hrest : MoreMembersText R ks u u') :
    ObjectText (k :: ks) (a ++ '\x7b' :: (key ++ ':' :: (t ++ (u ++ '\x7d' :: c))))
      (a ++ '\x7b' :: (key ++ ':' :: (t' ++ (u' ++ '\x7d' :: c))))

end Texts

/-- The text of the elements behind another one. -/
inductive MoreElementsText : List Char → Prop where
  | nil : MoreElementsText []
  | cons {t u : List Char} {v : Json} (h : Spells t v) (hrest : MoreElementsText u) :
    MoreElementsText (',' :: (t ++ u))

/-- Two texts of an array: the texts of its first element are related, and those of the others equal. -/
inductive ArrayText (R : List Char → List Char → Prop) : List Char → List Char → Prop where
  | empty {a b c : List Char} (ha : AreBlanks a) (hb : AreBlanks b) (hc : AreBlanks c) :
    ArrayText R (a ++ '[' :: (b ++ ']' :: c)) (a ++ '[' :: (b ++ ']' :: c))
  | elements {a c t t' u : List Char} (ha : AreBlanks a) (hc : AreBlanks c) (h : R t t')
    (hrest : MoreElementsText u) :
    ArrayText R (a ++ '[' :: (t ++ (u ++ ']' :: c))) (a ++ '[' :: (t' ++ (u ++ ']' :: c)))

/-! ## What follows a text -/

/-- What follows a text in a container, or its end. -/
def Closes (next : List Char) : Prop :=
  ∀ c, next.head? = some c → c = ',' ∨ c = ':' ∨ c = ']' ∨ c = '\x7d'

theorem closes_nil : Closes [] := nofun

theorem closes_cons {c : Char} (h : c = ',' ∨ c = ':' ∨ c = ']' ∨ c = '\x7d') (next : List Char) :
    Closes (c :: next) := by
  rintro _ ⟨⟩
  exact h

theorem Closes.endsNumber {next : List Char} (h : Closes next) : EndsNumber next := by
  intro c hc
  rcases h c hc with rfl | rfl | rfl | rfl <;> decide

theorem Closes.agree {next next' : List Char} (h : Closes next') (b : List Char) :
    Agree (b ++ next) (b ++ next') := Agree.append (Or.inr h.endsNumber) b

theorem Closes.agree_right {next : List Char} (h : Closes next) (b : List Char) : Agree b (b ++ next) := by
  have hagree : Agree (b ++ []) (b ++ next) := h.agree b
  rwa [List.append_nil] at hagree

theorem areBlanks_nil : AreBlanks [] := nofun

theorem skipBlanks_eq_nil {b : List Char} (h : skipBlanks b = []) : AreBlanks b := by
  obtain ⟨blanks, hb, hblanks⟩ := skipBlanks_cases b
  rw [h, List.append_nil] at hb
  exact hb ▸ hblanks

theorem AreBlanks.skipBlanks {b : List Char} (h : AreBlanks b) : skipBlanks b = [] := by
  have hskip := skipBlanks_append h []
  rwa [List.append_nil] at hskip

theorem skipBlanks_open {a : List Char} (ha : AreBlanks a) {c : Char} (hc : isBlank c = false)
    (cs : List Char) : skipBlanks (a ++ c :: cs) = c :: cs := by
  rw [skipBlanks_append ha, skipBlanks_of_not_blank hc]

theorem agree_left (b next : List Char) : Agree (b ++ next) b := by
  cases b with
  | nil => exact agree_nil next
  | cons c b => exact Or.inl rfl

theorem run_eq_ok_iff {α : Type} {r : Reader α} {text : String} {x : α} :
    r.run text = .ok x ↔ ∃ b, AreBlanks b ∧ r text.toList = .ok (x, b) := by
  unfold Reader.run
  cases hr : r text.toList with
  | error fault => simp
  | ok p =>
    obtain ⟨y, rest⟩ := p
    simp only [Except.ok.injEq, Prod.mk.injEq]
    constructor
    · intro h
      split at h
      · rename_i hrest
        cases h
        exact ⟨rest, skipBlanks_eq_nil hrest, rfl, rfl⟩
      · cases h
    · rintro ⟨b, hb, rfl, rfl⟩
      rw [hb.skipBlanks]

theorem spells_iff {t : List Char} {v : Json} :
    Spells t v ↔ ∃ b, AreBlanks b ∧ value (t.length + 1) maxDepth t = .ok (v, b) := by
  rw [Spells, parse, run_eq_ok_iff, String.toList_ofList, String.length_ofList]

/-! ## Reading two texts -/

variable {α β : Type} {item : Nat → Reader α} {V : α → α → Prop} {t t' : List Char}

/-- What is read of the first text, whatever closes it, decides what is read of the second. -/
def Reads (item : Nat → Reader α) (V : α → α → Prop) (t t' : List Char) : Prop :=
  ∀ ⦃n : Nat⦄ ⦃next : List Char⦄ ⦃x : α⦄ ⦃after : List Char⦄, Closes next →
    item n (t ++ next) = .ok (x, after) → ∃ b x' b', AreBlanks b ∧ after = b ++ next ∧ V x x' ∧
      AreBlanks b' ∧ ∀ ⦃budget : Nat⦄ ⦃next' : List Char⦄, t'.length < budget → Closes next' →
        item budget (t' ++ next') = .ok (x', b' ++ next')

theorem Reads.mono {W : α → α → Prop} (h : Reads item V t t') (hVW : ∀ x x', V x x' → W x x') :
    Reads item W t t' := by
  intro n next x after hnext hx
  obtain ⟨b, x', b', hb, hafter, hV, hrest⟩ := h hnext hx
  exact ⟨b, x', b', hb, hafter, hVW x x' hV, hrest⟩

/-- Readers that read the two texts alike. -/
theorem Reads.congr {other : Nat → Reader α} (h : Reads item V t t')
    (ht : ∀ n next, other n (t ++ next) = item n (t ++ next))
    (ht' : ∀ n next, other n (t' ++ next) = item n (t' ++ next)) : Reads other V t t' := by
  intro n next x after hnext hx
  rw [ht] at hx
  obtain ⟨b, x', b', hb, hafter, hV, hb', hread⟩ := h hnext hx
  refine ⟨b, x', b', hb, hafter, hV, hb', fun budget next' hbudget hnext' => ?_⟩
  rw [ht']
  exact hread hbudget hnext'

/-- What is read is wrapped up. -/
theorem Reads.map {W : β → β → Prop} (f : α → β) (h : Reads item V t t')
    (hVW : ∀ x x', V x x' → W (f x) (f x')) :
    Reads (fun n cs => item n cs >>= fun p => .ok (f p.1, p.2)) W t t' := by
  intro n next y after hnext hy
  obtain ⟨⟨x, rest⟩, hx, hy⟩ := bind_eq_ok.mp hy
  cases hy
  obtain ⟨b, x', b', hb, hafter, hV, hb', hread⟩ := h hnext hx
  exact ⟨b, f x', b', hb, hafter, hVW x x' hV, hb', fun budget next' hbudget hnext' =>
    bind_eq_ok.mpr ⟨_, hread hbudget hnext', rfl⟩⟩

/-- A text that is read as the same whatever stands behind it. -/
theorem reads_of_forall {x : α} {c : List Char} (hc : AreBlanks c) (hx : V x x)
    (h : ∀ n next, item n (t ++ next) = .ok (x, c ++ next)) : Reads item V t t := by
  intro n next y after _ hy
  rw [h] at hy
  cases hy
  exact ⟨c, x, c, hc, rfl, hx, hc, fun budget next' _ _ => h budget next'⟩

/-- A text that a reader reads to its end, others read to its end too, and as the same. -/
theorem reads_same {top : Nat → Reader α} (htop : ∀ n, (item n).IsLocal top)
    (hlocal : ∀ n, (top n).IsLocal top) (hitem : ∀ n, (item n).IsLocal item) {m : Nat} {v : α} {b : List Char}
    (h : top m t = .ok (v, b)) (hb : AreBlanks b) : Reads item (fun x x' => x = v ∧ x' = v) t t := by
  obtain ⟨used, rfl, hused⟩ := hlocal m h
  intro n next x after hnext hx
  -- both readers as one that has enough budget
  obtain ⟨taken, htaken, hread⟩ := htop n hx
  obtain ⟨taken', htaken', hread'⟩ := hitem n hx
  have hlarge := hused (Nat.lt_succ_of_le (Nat.le_add_right used.length taken.length)) (hnext.agree_right b)
  have hlarge' := hread (Nat.lt_succ_of_le (Nat.le_add_left taken.length used.length)) (Agree.refl after)
  rw [← htaken, List.append_assoc, hlarge] at hlarge'
  cases hlarge'
  rw [List.append_assoc] at htaken'
  have hsame : taken' = used := (List.append_cancel_right htaken').symm
  subst hsame
  refine ⟨b, v, b, hb, rfl, ⟨rfl, rfl⟩, hb, fun budget next' hbudget hnext' => ?_⟩
  rw [List.length_append] at hbudget
  rw [List.append_assoc]
  exact hread' (by omega) (hnext'.agree b)

/-- The text of a value is read as it, by every reader that goes deep enough. -/
theorem Spells.reads {v : Json} (h : Spells t v) {depth : Nat} (hdepth : depth ≤ maxDepth) :
    Reads (fun n => value n depth) (fun x x' => x = v ∧ x' = v) t t := by
  obtain ⟨b, hb, hv⟩ := spells_iff.mp h
  exact reads_same (fun n => isLocal_value hdepth n) (fun n => isLocal_value le_rfl n)
    (fun n => isLocal_value le_rfl n) hv hb

/-! ## Keys -/

theorem string_of_valueWith {n : Nat} {nested : Option (Reader Json)} {cs rest : List Char} {s : String}
    (h : valueWith n nested cs = .ok (.string s, rest)) :
    ∃ next, skipBlanks cs = '"' :: next ∧ stringLiteral n next = .ok (s, rest) := by
  rcases valueWith_cases h with
    ⟨hv, _⟩ | ⟨next, s', hskip, hs, hv⟩ | ⟨_, _, _, _, _, _, hv⟩ | ⟨_, _, _, _, _, _, hv⟩
  · exact absurd hv id
  · cases hv
    exact ⟨next, hskip, hs⟩
  · cases hv
  · cases hv

theorem valueWith_quote {n : Nat} {nested : Option (Reader Json)} {cs next rest : List Char} {s : String}
    (hskip : skipBlanks cs = '"' :: next) (h : stringLiteral n next = .ok (s, rest)) :
    valueWith n nested cs = .ok (.string s, rest) := by
  simp only [valueWith, hskip, Char.reduceEq, if_false, if_true, h, bind, Except.bind]

/-- The text of a string is read at any depth. -/
theorem Spells.string {s : String} (h : Spells t (.string s)) :
    ∃ b, AreBlanks b ∧ ∀ ⦃n depth : Nat⦄ ⦃next : List Char⦄, t.length < n → Closes next →
      value n depth (t ++ next) = .ok (.string s, b ++ next) := by
  obtain ⟨b, hb, hv⟩ := spells_iff.mp h
  obtain ⟨quoted, hskip, hs⟩ := string_of_valueWith hv
  obtain ⟨a, rfl, ha⟩ := exists_of_skipBlanks hskip
  obtain ⟨used, rfl, hused⟩ := isLocal_stringLiteral _ hs
  refine ⟨b, hb, fun n depth next hn hnext => ?_⟩
  simp only [List.length_append, List.length_cons] at hn
  have hread : stringLiteral n (used ++ (b ++ next)) = .ok (s, b ++ next) :=
    hused (by omega) (hnext.agree_right b)
  have hskip' := ha (used ++ (b ++ next))
  rw [List.append_assoc, List.cons_append, List.append_assoc]
  cases depth <;> exact valueWith_quote hskip' hread

/-- Before a colon a text is read as a key: `inner` is what stands behind its opening quote, and `b` the
blanks behind its closing one. -/
structure ReadsKey (key inner b : List Char) (k : String) : Prop where
  length : inner.length < key.length
  opens : ∀ y, skipBlanks (key ++ ':' :: y) = '"' :: (inner ++ ':' :: y)
  unique : ∀ {n : Nat} {y : List Char} {p : String × List Char},
    stringLiteral n (inner ++ ':' :: y) = .ok p → p = (k, b ++ ':' :: y)
  reads : ∀ {n : Nat} (y : List Char), inner.length < n →
    stringLiteral n (inner ++ ':' :: y) = .ok (k, b ++ ':' :: y)
  colon : ∀ y, colon (b ++ ':' :: y) = .ok ((), y)

theorem Spells.exists_readsKey {key : List Char} {k : String} (h : Spells key (.string k)) :
    ∃ inner b, ReadsKey key inner b k := by
  obtain ⟨b, hb, hv⟩ := spells_iff.mp h
  obtain ⟨next, hskip, hstring⟩ := string_of_valueWith hv
  obtain ⟨blanks, rfl, hblanks⟩ := exists_of_skipBlanks hskip
  obtain ⟨used, rfl, hused⟩ := isLocal_stringLiteral _ hstring
  have hclose : ∀ y, Closes (':' :: y) := closes_cons (by simp)
  have hread : ∀ {n : Nat} (y : List Char), (used ++ b).length < n →
      stringLiteral n ((used ++ b) ++ ':' :: y) = .ok (k, b ++ ':' :: y) := by
    intro n y hn
    rw [List.length_append] at hn
    rw [List.append_assoc]
    exact hused (by omega) ((hclose y).agree_right b)
  refine ⟨used ++ b, b, ?_, fun y => ?_, fun {n y p} hp => ?_, hread, fun y => ?_⟩
  · simp
    omega
  · simpa using hblanks ((used ++ b) ++ ':' :: y)
  · -- with more budget the same is read
    obtain ⟨s, after⟩ := p
    obtain ⟨taken, htaken, hmore⟩ := isLocal_stringLiteral n hp
    have hbudget : taken.length < taken.length + (used ++ b).length + 1 := by omega
    have hlarge := hmore hbudget (Agree.refl after)
    rw [← htaken, hread y (Nat.lt_succ_of_le (Nat.le_add_left _ _))] at hlarge
    cases hlarge
    rfl
  · have hskip' := skipBlanks_append hb (':' :: y)
    rw [skipBlanks_of_not_blank rfl] at hskip'
    simp only [Reader.colon, hskip']

section Members

variable {reader : Reader α} {key inner b y rest : List Char} {k : String} {n : Nat} {m : String × α}

theorem ReadsKey.of_member (h : ReadsKey key inner b k)
    (hm : member reader n (inner ++ ':' :: y) = .ok (m, rest)) : m.1 = k ∧ reader y = .ok (m.2, rest) := by
  obtain ⟨p, hp, hm⟩ := bind_eq_ok.mp hm
  cases h.unique hp
  obtain ⟨p, hp, hm⟩ := bind_eq_ok.mp hm
  rw [h.colon] at hp
  cases hp
  obtain ⟨⟨x, after⟩, hx, hm⟩ := bind_eq_ok.mp hm
  cases hm
  exact ⟨rfl, hx⟩

theorem ReadsKey.member (h : ReadsKey key inner b k) (hn : inner.length < n) {x : α}
    (hx : reader y = .ok (x, rest)) : member reader n (inner ++ ':' :: y) = .ok ((k, x), rest) := by
  unfold Reader.member
  simp only [h.reads y hn, h.colon, hx, bind, Except.bind]

/-- A member starts with the text of its key. -/
theorem exists_key {cs next : List Char} (hskip : skipBlanks cs = '"' :: next)
    (hm : member reader n next = .ok (m, rest)) :
    ∃ key y, cs = key ++ ':' :: y ∧ Spells key (.string m.1) ∧ reader y = .ok (m.2, rest) := by
  obtain ⟨⟨k, behind⟩, hk, hm⟩ := bind_eq_ok.mp hm
  obtain ⟨⟨_, y⟩, hcolon, hm⟩ := bind_eq_ok.mp hm
  obtain ⟨⟨x, after⟩, hx, hm⟩ := bind_eq_ok.mp hm
  cases hm
  obtain ⟨a, rfl, ha⟩ := exists_of_skipBlanks hskip
  obtain ⟨used, rfl, hused⟩ := isLocal_stringLiteral n hk
  have hopen : ∃ c, skipBlanks behind = ':' :: c ∧ c = y := by
    unfold colon at hcolon
    split at hcolon
    · cases hcolon
    · cases hcolon
      exact ⟨_, by assumption, rfl⟩
    · cases hcolon
  obtain ⟨_, hbehind, rfl⟩ := hopen
  obtain ⟨b, hb, hblanks⟩ := skipBlanks_cases behind
  rw [hbehind] at hb
  subst hb
  refine ⟨a ++ '"' :: (used ++ b), _, by simp, spells_iff.mpr ⟨b, hblanks, ?_⟩, hx⟩
  refine valueWith_quote (ha _) (hused ?_ (agree_left b _))
  simp
  omega

end Members

/-! ## Objects -/

/-- The members of two objects have these keys, and related values. -/
structure MembersRel (ks : List String) (V : String → α → α → Prop) (ms ms' : List (String × α)) : Prop where
  keys : ms.map Prod.fst = ks
  values : List.Forall₂ (fun m m' => m'.1 = m.1 ∧ V m.1 m.2 m'.2) ms ms'

section Objects

variable {V : String → α → α → Prop} {R : String → List Char → List Char → Prop} {ks : List String}
  {u u' : List Char}

theorem MoreMembersText.closes (h : MoreMembersText R ks u u') (rest : List Char) :
    Closes (u ++ '\x7d' :: rest) ∧ Closes (u' ++ '\x7d' :: rest) := by
  cases h with
  | nil => exact ⟨closes_cons (by simp) _, closes_cons (by simp) _⟩
  | cons => exact ⟨closes_cons (by simp) _, closes_cons (by simp) _⟩

theorem MoreMembersText.mono {S : String → List Char → List Char → Prop} (h : MoreMembersText R ks u u')
    (hRS : ∀ k ∈ ks, ∀ t t', R k t t' → S k t t') : MoreMembersText S ks u u' := by
  induction h with
  | nil => exact .nil
  | cons hkey hvalue _ ih =>
    exact .cons hkey (hRS _ List.mem_cons_self _ _ hvalue)
      (ih fun k hk => hRS k (List.mem_cons_of_mem _ hk))

/-- The members behind another one are read alike in two texts, if their values are. -/
theorem MoreMembersText.reads (h : MoreMembersText R ks u u')
    (hR : ∀ {k t t'}, R k t t' → Reads item (V k) t t') {size n : Nat} {b rest after : List Char}
    {ms : List (String × α)} (hb : AreBlanks b)
    (hms : moreMembers (item size) n (b ++ (u ++ '\x7d' :: rest)) = .ok (ms, after)) :
    after = rest ∧ ∃ ms', MembersRel ks V ms ms' ∧
      ∀ ⦃size' n' : Nat⦄ ⦃b' rest' : List Char⦄, u'.length < size' → u'.length < n' → AreBlanks b' →
        moreMembers (item size') n' (b' ++ (u' ++ '\x7d' :: rest')) = .ok (ms', rest') := by
  induction h generalizing n b ms with
  | nil =>
    obtain ⟨n, rfl⟩ : ∃ k, n = k + 1 := by
      cases n with
      | zero => cases hms
      | succ n => exact ⟨n, rfl⟩
    rw [List.nil_append, moreMembers_close (skipBlanks_open hb rfl rest)] at hms
    cases hms
    refine ⟨rfl, [], ⟨rfl, .nil⟩, fun size' n' b' rest' _ hn' hb' => ?_⟩
    obtain ⟨n', rfl⟩ : ∃ k, n' = k + 1 := ⟨n' - 1, by omega⟩
    exact moreMembers_close (skipBlanks_open hb' rfl rest')
  | cons hkey hvalue hrest ih =>
    rename_i k ks key t t' u u'
    obtain ⟨inner, bk, hread⟩ := hkey.exists_readsKey
    simp only [List.cons_append, List.append_assoc] at hms ⊢
    cases n with
    | zero => cases hms
    | succ n =>
      rcases moreMembers_cases hms with ⟨hskip, _⟩ |
        ⟨_, quoted, m, mid, ns, hskip, hquote, hm, hns, rfl⟩
      · rw [skipBlanks_open hb rfl] at hskip
        cases hskip
      rw [skipBlanks_open hb rfl] at hskip
      cases hskip
      rw [hread.opens] at hquote
      cases hquote
      obtain ⟨hk, hx⟩ := hread.of_member hm
      obtain ⟨b₁, x', b₂, hb₁, rfl, hV, hb₂, hx'⟩ := hR hvalue (hrest.closes rest).1 hx
      obtain ⟨rfl, ns', hrel, hns'⟩ := ih hb₁ hns
      refine ⟨rfl, (k, x') :: ns', ⟨?_, .cons ⟨hk.symm, hk ▸ hV⟩ hrel.values⟩,
        fun size' n' b' rest' hsize' hn' hb' => ?_⟩
      · rw [List.map_cons, hk, hrel.keys]
      · have hlength := hread.length
        simp only [List.length_cons, List.length_append] at hsize' hn'
        obtain ⟨n', rfl⟩ : ∃ k, n' = k + 1 := ⟨n' - 1, by omega⟩
        have hx'' := hx' (by omega : t'.length < size') (hrest.closes rest').2
        have hmember := hread.member (by omega : inner.length < n' + 1) hx''
        have hns'' : moreMembers (item size') n' (b₂ ++ (u' ++ '\x7d' :: rest')) = .ok (ns', rest') :=
          hns' (by omega) (by omega) hb₂
        exact moreMembers_comma (skipBlanks_open hb' rfl _) (hread.opens _) hmember hns''

/-- Reads the members of an object. -/
def objectOf (item : Nat → Reader α) (n : Nat) : Reader (List (String × α)) := fun cs =>
  match skipBlanks cs with
  | '\x7b' :: rest => members (item n) n rest
  | other => .error (.first .expectedValue other)

theorem objectOf_of_skipBlanks {cs rest : List Char} (h : skipBlanks cs = '\x7b' :: rest) (n : Nat) :
    objectOf item n cs = members (item n) n rest := by
  simp only [objectOf, h]

/-- **Two objects are read alike**, if their values are. -/
theorem ObjectText.reads (h : ObjectText R ks t t')
    (hR : ∀ {k t t'}, R k t t' → Reads item (V k) t t') : Reads (objectOf item) (MembersRel ks V) t t' := by
  cases h with
  | empty ha hb hc =>
    refine reads_of_forall hc ⟨rfl, .nil⟩ fun n next => ?_
    simp only [List.append_assoc, List.cons_append]
    rw [objectOf_of_skipBlanks (skipBlanks_open ha rfl _)]
    unfold Reader.members
    rw [skipBlanks_open hb rfl]
    rfl
  | members ha hc hkey hvalue hrest =>
    rename_i k ks a c key t t' u u'
    obtain ⟨inner, bk, hread⟩ := hkey.exists_readsKey
    intro n next ms after hnext hms
    simp only [List.append_assoc, List.cons_append] at hms
    rw [objectOf_of_skipBlanks (skipBlanks_open ha rfl _)] at hms
    rcases members_cases hms with ⟨hskip, _⟩ | ⟨quoted, m, mid, ns, hquote, hm, hns, rfl⟩
    · rw [hread.opens] at hskip
      cases hskip
    rw [hread.opens] at hquote
    cases hquote
    obtain ⟨hk, hx⟩ := hread.of_member hm
    obtain ⟨b₁, x', b₂, hb₁, rfl, hV, hb₂, hx'⟩ := hR hvalue (hrest.closes (c ++ next)).1 hx
    obtain ⟨rfl, ns', hrel, hns'⟩ := hrest.reads hR hb₁ hns
    refine ⟨c, (k, x') :: ns', c, hc, rfl, ⟨?_, .cons ⟨hk.symm, hk ▸ hV⟩ hrel.values⟩, hc,
      fun budget next' hbudget _ => ?_⟩
    · rw [List.map_cons, hk, hrel.keys]
    · have hlength := hread.length
      simp only [List.length_cons, List.length_append] at hbudget
      have hx'' := hx' (by omega : t'.length < budget) (hrest.closes (c ++ next')).2
      have hmember := hread.member (by omega : inner.length < budget) hx''
      have hns'' : moreMembers (item budget) budget (b₂ ++ (u' ++ '\x7d' :: (c ++ next'))) =
          .ok (ns', c ++ next') := hns' (by omega) (by omega) hb₂
      simp only [List.append_assoc, List.cons_append]
      rw [objectOf_of_skipBlanks (skipBlanks_open ha rfl _)]
      exact members_cons (hread.opens _) hmember hns''

end Objects

/-! ## Arrays -/

theorem value_skipBlanks (n depth : Nat) (cs : List Char) :
    value n depth (skipBlanks cs) = value n depth cs := by
  have hskip : skipBlanks (skipBlanks cs) = skipBlanks cs := List.dropWhile_idempotent _ _
  cases depth <;> simp only [value, valueWith, hskip]

/-- A value does not start where an array ends. -/
theorem startsValue_of_value {n depth : Nat} {cs rest : List Char} {v : Json}
    (h : value n depth cs = .ok (v, rest)) : StartsValue (skipBlanks cs) := by
  refine startsValue_skipBlanks (fun hnil => ?_) fun after hclose => ?_
  · cases depth <;> rw [value] at h <;> unfold valueWith at h <;> rw [hnil] at h <;> cases h
  · cases depth <;> rw [value] at h <;> unfold valueWith at h <;> rw [hclose] at h <;> cases h

theorem Spells.startsValue {v : Json} (h : Spells t v) (rest : List Char) :
    StartsValue (skipBlanks (t ++ rest)) := by
  obtain ⟨b, _, hv⟩ := spells_iff.mp h
  obtain ⟨c, more, hc, hblank, hclose⟩ := startsValue_of_value hv
  obtain ⟨a, rfl, ha⟩ := exists_of_skipBlanks hc
  rw [List.append_assoc, List.cons_append, ha]
  exact ⟨c, _, rfl, hblank, hclose⟩

section Arrays

variable {depth : Nat} {u : List Char}

theorem MoreElementsText.closes (h : MoreElementsText u) (rest : List Char) : Closes (u ++ ']' :: rest) := by
  cases h with
  | nil => exact closes_cons (by simp) _
  | cons => exact closes_cons (by simp) _

/-- The elements behind another one are read alike within any text. -/
theorem MoreElementsText.reads (h : MoreElementsText u) (hdepth : depth ≤ maxDepth) {size n : Nat}
    {b rest after : List Char} {xs : List Json} (hb : AreBlanks b)
    (hxs : moreElements (value size depth) n (b ++ (u ++ ']' :: rest)) = .ok (xs, after)) :
    after = rest ∧ ∀ ⦃size' n' : Nat⦄ ⦃b' rest' : List Char⦄, u.length < size' → u.length < n' →
      AreBlanks b' → moreElements (value size' depth) n' (b' ++ (u ++ ']' :: rest')) = .ok (xs, rest') := by
  induction h generalizing n b xs with
  | nil =>
    cases n with
    | zero => cases hxs
    | succ n =>
      rw [List.nil_append, moreElements_close (skipBlanks_open hb rfl rest)] at hxs
      cases hxs
      refine ⟨rfl, fun size' n' b' rest' _ hn' hb' => ?_⟩
      obtain ⟨n', rfl⟩ : ∃ k, n' = k + 1 := ⟨n' - 1, by omega⟩
      exact moreElements_close (skipBlanks_open hb' rfl rest')
  | cons hvalue hrest ih =>
    rename_i t u v
    simp only [List.cons_append, List.append_assoc] at hxs ⊢
    cases n with
    | zero => cases hxs
    | succ n =>
      rcases moreElements_cases hxs with ⟨hskip, _⟩ | ⟨_, x, mid, ys, hskip, _, hx, hys, rfl⟩
      · rw [skipBlanks_open hb rfl] at hskip
        cases hskip
      rw [skipBlanks_open hb rfl] at hskip
      cases hskip
      rw [value_skipBlanks] at hx
      obtain ⟨b₁, x', b₂, hb₁, rfl, ⟨rfl, rfl⟩, hb₂, hx'⟩ := hvalue.reads hdepth (hrest.closes rest) hx
      obtain ⟨rfl, hys'⟩ := ih hb₁ hys
      refine ⟨rfl, fun size' n' b' rest' hsize' hn' hb' => ?_⟩
      simp only [List.length_cons, List.length_append] at hsize' hn'
      obtain ⟨n', rfl⟩ : ∃ k, n' = k + 1 := ⟨n' - 1, by omega⟩
      have hx'' := hx' (by omega : t.length < size') (hrest.closes rest')
      have hys'' : moreElements (value size' depth) n' (b₂ ++ (u ++ ']' :: rest')) = .ok (ys, rest') :=
        hys' (by omega) (by omega) hb₂
      exact moreElements_comma (skipBlanks_open hb' rfl _) (startsValue_of_value hx'')
        ((value_skipBlanks ..).trans hx'') hys''

def arrayOf (depth n : Nat) : Reader (List Json) := fun cs =>
  match skipBlanks cs with
  | '[' :: rest => elements (value n depth) n rest
  | other => .error (.first .expectedValue other)

theorem arrayOf_of_skipBlanks {cs rest : List Char} (h : skipBlanks cs = '[' :: rest) (n : Nat) :
    arrayOf depth n cs = elements (value n depth) n rest := by
  simp only [arrayOf, h]

/-- The elements of two arrays are the same, but for the first ones, which are related. -/
inductive ElementsRel (V : Json → Json → Prop) : List Json → List Json → Prop where
  | nil : ElementsRel V [] []
  | cons {x x' : Json} (h : V x x') (xs : List Json) : ElementsRel V (x :: xs) (x' :: xs)

/-- **Two arrays are read alike**, if their first elements are. -/
theorem ArrayText.reads {V : Json → Json → Prop} {R : List Char → List Char → Prop} (h : ArrayText R t t')
    (hdepth : depth ≤ maxDepth) (hspells : ∀ {t t'}, R t t' → ∃ v, Spells t v)
    (hR : ∀ {t t'}, R t t' → Reads (fun n => value n depth) V t t') :
    Reads (arrayOf depth) (ElementsRel V) t t' := by
  cases h with
  | empty ha hb hc =>
    refine reads_of_forall hc .nil fun n next => ?_
    simp only [List.append_assoc, List.cons_append]
    rw [arrayOf_of_skipBlanks (skipBlanks_open ha rfl _)]
    unfold Reader.elements
    rw [skipBlanks_open hb rfl]
    rfl
  | elements ha hc hvalue hrest =>
    rename_i a c t t' u
    intro n next xs after hnext hxs
    simp only [List.append_assoc, List.cons_append] at hxs
    rw [arrayOf_of_skipBlanks (skipBlanks_open ha rfl _)] at hxs
    obtain ⟨v, hv⟩ := hspells hvalue
    rcases elements_cases hxs with ⟨hskip, _⟩ | ⟨x, mid, ys, _, hx, hys, rfl⟩
    · obtain ⟨d, more, hd, _, hclose⟩ := hv.startsValue (u ++ ']' :: (c ++ next))
      rw [hd] at hskip
      cases hskip
      exact absurd rfl hclose
    · rw [value_skipBlanks] at hx
      obtain ⟨b₁, x', b₂, hb₁, rfl, hV, hb₂, hx'⟩ := hR hvalue (hrest.closes (c ++ next)) hx
      obtain ⟨rfl, hys'⟩ := hrest.reads hdepth hb₁ hys
      refine ⟨c, x' :: ys, c, hc, rfl, .cons hV ys, hc, fun budget next' hbudget _ => ?_⟩
      simp only [List.length_cons, List.length_append] at hbudget
      have hx'' := hx' (by omega : t'.length < budget) (hrest.closes (c ++ next'))
      have hys'' : moreElements (value budget depth) budget (b₂ ++ (u ++ ']' :: (c ++ next'))) =
          .ok (ys, c ++ next') := hys' (by omega) (by omega) hb₂
      simp only [List.append_assoc, List.cons_append]
      rw [arrayOf_of_skipBlanks (skipBlanks_open ha rfl _)]
      exact elements_cons (startsValue_of_value hx'') ((value_skipBlanks ..).trans hx'') hys''

end Arrays

/-! ## Containers as values -/

/-- A reader of the text meets this character first, whatever stands behind the text. -/
def BeginsWith (c : Char) (t : List Char) : Prop := ∀ next, ∃ rest, skipBlanks (t ++ next) = c :: rest

theorem AreBlanks.beginsWith {a : List Char} (ha : AreBlanks a) {c : Char} (hc : isBlank c = false)
    (cs : List Char) : BeginsWith c (a ++ c :: cs) := fun next =>
  ⟨cs ++ next, by rw [List.append_assoc]; exact skipBlanks_open ha hc _⟩

theorem ObjectText.opens {R : String → List Char → List Char → Prop} {ks : List String}
    (h : ObjectText R ks t t') : BeginsWith '\x7b' t ∧ BeginsWith '\x7b' t' := by
  cases h with
  | empty ha => exact ⟨ha.beginsWith rfl _, ha.beginsWith rfl _⟩
  | members ha => exact ⟨ha.beginsWith rfl _, ha.beginsWith rfl _⟩

theorem ArrayText.opens {R : List Char → List Char → Prop} (h : ArrayText R t t') :
    BeginsWith '[' t ∧ BeginsWith '[' t' := by
  cases h with
  | empty ha => exact ⟨ha.beginsWith rfl _, ha.beginsWith rfl _⟩
  | elements ha => exact ⟨ha.beginsWith rfl _, ha.beginsWith rfl _⟩

theorem value_of_object {cs rest : List Char} (h : skipBlanks cs = '\x7b' :: rest) (n depth : Nat) :
    value n (depth + 1) cs =
      (objectOf (fun n => value n depth) n cs >>= fun p => .ok (.object (fieldsOfMembers p.1), p.2)) := by
  simp only [value, valueWith, objectOf, h, Char.reduceEq, if_false, if_true]
  rfl

theorem value_of_array {cs rest : List Char} (h : skipBlanks cs = '[' :: rest) (n depth : Nat) :
    value n (depth + 1) cs = (arrayOf depth n cs >>= fun p => .ok (.array p.1, p.2)) := by
  simp only [value, valueWith, arrayOf, h, Char.reduceEq, if_false, if_true]
  rfl

/-- Two objects as values. -/
theorem ObjectText.reads_value {V : String → Json → Json → Prop} {R : String → List Char → List Char → Prop}
    {ks : List String} {depth : Nat} {W : Json → Json → Prop} (h : ObjectText R ks t t')
    (hR : ∀ {k t t'}, R k t t' → Reads (fun n => value n depth) (V k) t t')
    (hW : ∀ ms ms', MembersRel ks V ms ms' →
      W (.object (fieldsOfMembers ms)) (.object (fieldsOfMembers ms'))) :
    Reads (fun n => value n (depth + 1)) W t t' := by
  refine ((h.reads hR).map (fun ms => Json.object (fieldsOfMembers ms)) hW).congr (fun n next => ?_)
    fun n next => ?_
  · obtain ⟨rest, hrest⟩ := h.opens.1 next
    exact value_of_object hrest n depth
  · obtain ⟨rest, hrest⟩ := h.opens.2 next
    exact value_of_object hrest n depth

/-- Two arrays as values. -/
theorem ArrayText.reads_value {V : Json → Json → Prop} {R : List Char → List Char → Prop} {depth : Nat}
    {W : Json → Json → Prop} (h : ArrayText R t t') (hdepth : depth ≤ maxDepth)
    (hspells : ∀ {t t'}, R t t' → ∃ v, Spells t v)
    (hR : ∀ {t t'}, R t t' → Reads (fun n => value n depth) V t t')
    (hW : ∀ xs xs', ElementsRel V xs xs' → W (.array xs) (.array xs')) :
    Reads (fun n => value n (depth + 1)) W t t' := by
  refine ((h.reads hdepth hspells hR).map Json.array hW).congr (fun n next => ?_) fun n next => ?_
  · obtain ⟨rest, hrest⟩ := h.opens.1 next
    exact value_of_array hrest n depth
  · obtain ⟨rest, hrest⟩ := h.opens.2 next
    exact value_of_array hrest n depth

/-! ## Texts that are read -/

/-- What is read before something that closes it is read from a text of some kind. -/
def Covers (item : Nat → Reader α) (K : List Char → α → Prop) : Prop :=
  ∀ ⦃n : Nat⦄ ⦃cs b next : List Char⦄ ⦃x : α⦄, AreBlanks b → Closes next →
    item n cs = .ok (x, b ++ next) → ∃ t, cs = t ++ next ∧ K t x

/-- What a local reader reads it reads from a text that is read to its end as the same. -/
theorem covers_of_isLocal {top : Nat → Reader α} (h : ∀ n, (item n).IsLocal top) :
    Covers item fun t x => ∃ b, AreBlanks b ∧ top (t.length + 1) t = .ok (x, b) := by
  intro n cs b next x hb _ hx
  obtain ⟨used, rfl, hused⟩ := h n hx
  refine ⟨used ++ b, by simp, b, hb, hused ?_ (agree_left b next)⟩
  rw [List.length_append]
  omega

/-- A value is read from a text that spells it. -/
theorem covers_value {depth : Nat} (hdepth : depth ≤ maxDepth) : Covers (fun n => value n depth) Spells := by
  intro n cs b next v hb hnext hv
  obtain ⟨t, hcs, ht⟩ := covers_of_isLocal (fun n => isLocal_value hdepth n) hb hnext hv
  exact ⟨t, hcs, spells_iff.mpr ht⟩

section Covered

variable {R : String → List Char → List Char → Prop}

/-- The members behind another one are read from texts of members. -/
theorem exists_moreMembersText (hR : ∀ k, Covers item fun t _ => ∃ t', R k t t') {size n : Nat}
    {cs after : List Char} {ms : List (String × α)} (h : moreMembers (item size) n cs = .ok (ms, after)) :
    ∃ b u u', AreBlanks b ∧ cs = b ++ (u ++ '\x7d' :: after) ∧ MoreMembersText R (ms.map Prod.fst) u u' := by
  induction n generalizing cs ms with
  | zero => cases h
  | succ n ih =>
    obtain ⟨b, hcs, hb⟩ := skipBlanks_cases cs
    rcases moreMembers_cases h with ⟨hskip, rfl⟩ | ⟨_, _, m, mid, ns, hskip, hquote, hm, hns, rfl⟩
    · exact ⟨b, [], [], hb, hskip ▸ hcs, .nil⟩
    · obtain ⟨key, y, rfl, hkey, hx⟩ := exists_key hquote hm
      obtain ⟨b₁, u, u', hb₁, rfl, hu⟩ := ih hns
      obtain ⟨t, rfl, t', ht⟩ := hR m.1 hb₁ (hu.closes after).1 hx
      refine ⟨b, _, _, hb, ?_, .cons hkey ht hu⟩
      rw [hcs, hskip]
      simp

/-- An object is read from a text of an object. -/
theorem covers_objectOf (hR : ∀ k, Covers item fun t _ => ∃ t', R k t t') :
    Covers (objectOf item) fun t ms => ∃ t', ObjectText R (ms.map Prod.fst) t t' := by
  intro n cs c next ms hc hnext h
  unfold objectOf at h
  split at h
  · rename_i inside hskip
    obtain ⟨a, hcs, ha⟩ := skipBlanks_cases cs
    rw [hskip] at hcs
    obtain ⟨b, hinside, hb⟩ := skipBlanks_cases inside
    rcases members_cases h with ⟨hclose, rfl⟩ | ⟨_, m, mid, ns, hquote, hm, hns, rfl⟩
    · rw [hclose] at hinside
      exact ⟨_, by rw [hcs, hinside]; simp, _, .empty ha hb hc⟩
    · obtain ⟨key, y, rfl, hkey, hx⟩ := exists_key hquote hm
      obtain ⟨b₁, u, u', hb₁, rfl, hu⟩ := exists_moreMembersText hR hns
      obtain ⟨t, rfl, t', ht⟩ := hR m.1 hb₁ (hu.closes _).1 hx
      exact ⟨_, by rw [hcs]; simp, _, .members ha hc hkey ht hu⟩
  · cases h

/-- The elements behind another one are read from texts of values. -/
theorem exists_moreElementsText {depth : Nat} (hdepth : depth ≤ maxDepth) {size n : Nat}
    {cs after : List Char} {xs : List Json} (h : moreElements (value size depth) n cs = .ok (xs, after)) :
    ∃ b u, AreBlanks b ∧ cs = b ++ (u ++ ']' :: after) ∧ MoreElementsText u := by
  induction n generalizing cs xs with
  | zero => cases h
  | succ n ih =>
    obtain ⟨b, hcs, hb⟩ := skipBlanks_cases cs
    rcases moreElements_cases h with ⟨hskip, rfl⟩ | ⟨_, x, mid, ys, hskip, _, hx, hys, rfl⟩
    · exact ⟨b, [], hb, hskip ▸ hcs, .nil⟩
    · rw [value_skipBlanks] at hx
      obtain ⟨b₁, u, hb₁, rfl, hu⟩ := ih hys
      obtain ⟨t, rfl, ht⟩ := covers_value hdepth hb₁ (hu.closes after) hx
      refine ⟨b, _, hb, ?_, .cons ht hu⟩
      rw [hcs, hskip]
      simp

/-- An array is read from a text of an array. -/
theorem covers_arrayOf {S : List Char → List Char → Prop} {depth : Nat} (hdepth : depth ≤ maxDepth)
    (hS : Covers (fun n => value n depth) fun t _ => ∃ t', S t t') :
    Covers (arrayOf depth) fun t _ => ∃ t', ArrayText S t t' := by
  intro n cs c next xs hc hnext h
  unfold arrayOf at h
  split at h
  · rename_i inside hskip
    obtain ⟨a, hcs, ha⟩ := skipBlanks_cases cs
    rw [hskip] at hcs
    obtain ⟨b, hinside, hb⟩ := skipBlanks_cases inside
    rcases elements_cases h with ⟨hclose, rfl⟩ | ⟨x, mid, ys, _, hx, hys, rfl⟩
    · rw [hclose] at hinside
      exact ⟨_, by rw [hcs, hinside]; simp, _, .empty ha hb hc⟩
    · rw [value_skipBlanks] at hx
      obtain ⟨b₁, u, hb₁, rfl, hu⟩ := exists_moreElementsText hdepth hys
      obtain ⟨t, rfl, t', ht⟩ := hS hb₁ (hu.closes _) hx
      exact ⟨_, by rw [hcs]; simp, _, .elements ha hc ht hu⟩
  · cases h

end Covered

end ContractBindings.Json
