import ContractBindings.Proofs.Binding.Members

/-!
# Text from outside

Names and types of an artifact are printed into a module as they are: the name of the contract into the
banner, the name of a function into its line and, with the types of its parameters, into the comment above.
Only what names parameters becomes an identifier first.

* `isOneLine_banner_iff`: the banner is one line exactly if the contract's name has no line break;
* `closesOnce_memberComment_iff`: a comment is closed once exactly if no name and no type in it holds the
  end of a comment; none can come about where two of them meet (`closes_append_cons`);
* `exists_member_eq`: a line is the function's name and nothing else from outside;
* `render_slots`: so a module is closed in itself exactly if the names and types it is made from are.
-/

set_option autoImplicit false

namespace ContractBindings.Binding

open Text Abi

/-! ## Lines -/

/-- A character that ends a line. -/
def isLineBreak (c : Char) : Bool := c == '\n' || c == '\r' || c == '\u2028' || c == '\u2029'

/-- A line with its end. -/
def IsOneLine (text : String) : Prop :=
  ∃ line, text.toList = line ++ ['\n'] ∧ ∀ c ∈ line, isLineBreak c = false

/-- A text that holds no line break. -/
def hasNoBreak (text : String) : Bool := text.toList.all fun c => !isLineBreak c

theorem isOneLine_append_iff {before name behind : String} (hbefore : hasNoBreak before = true)
    (hbehind : hasNoBreak behind = true) :
    IsOneLine (before ++ name ++ (behind ++ "\n")) ↔ hasNoBreak name = true := by
  have hchars : (before ++ name ++ (behind ++ "\n")).toList =
      (before.toList ++ name.toList ++ behind.toList) ++ ['\n'] := by
    rw [String.toList_append, String.toList_append, String.toList_append, ← List.append_assoc]
    rfl
  simp only [hasNoBreak, List.all_eq_true, Bool.not_eq_true'] at hbefore hbehind ⊢
  constructor
  · rintro ⟨line, hline, hfree⟩ c hc
    rw [hchars] at hline
    refine hfree c ?_
    rw [← List.append_cancel_right hline]
    exact List.mem_append_left _ (List.mem_append_right _ hc)
  · intro hfree
    refine ⟨_, hchars, fun c hc => ?_⟩
    rcases List.mem_append.mp hc with hc | hc
    · rcases List.mem_append.mp hc with hc | hc
      · exact hbefore c hc
      · exact hfree c hc
    · exact hbehind c hc

/-- **The banner is one line exactly if the contract's name has no line break.** -/
theorem isOneLine_banner_iff (contract : String) :
    IsOneLine (banner contract) ↔ hasNoBreak contract = true := by
  have hbanner : banner contract = "// This file was generated by typify-contracts from the `"
      ++ contract ++ ("` ABI. Do not edit." ++ "\n") := by
    unfold banner
    exact congrArg _ (by cbv)
  rw [hbanner]
  exact isOneLine_append_iff (by cbv) (by cbv)

/-! ## The end of a comment -/

/-- The end of a comment stands somewhere in a text. -/
def Closes (cs : List Char) : Prop := ['*', '/'] <:+: cs

instance (cs : List Char) : Decidable (Closes cs) := inferInstanceAs (Decidable (_ <:+: _))

/-- A text ends with the end of a comment, which stands nowhere else in it. -/
structure ClosesOnce (cs : List Char) : Prop where
  atEnd : ∃ body, cs = body ++ ['*', '/']
  nowhereElse : ∀ before behind, cs = before ++ ['*', '/'] ++ behind → behind = []

variable {u v cs : List Char} {c : Char}

theorem not_closes_nil : ¬ Closes [] := by decide

theorem Closes.mem (h : Closes cs) : '*' ∈ cs ∧ '/' ∈ cs :=
  ⟨h.subset (by simp), h.subset (by simp)⟩

/-- **No end of a comment comes about around a character** that is in none. -/
theorem closes_append_cons (hstar : c ≠ '*') (hslash : c ≠ '/') :
    Closes (u ++ c :: v) ↔ Closes u ∨ Closes v := by
  unfold Closes
  induction u with
  | nil =>
    rw [List.nil_append, List.infix_cons_iff, List.cons_prefix_cons]
    constructor
    · rintro (⟨hc, _⟩ | hv)
      · exact absurd hc.symm hstar
      · exact Or.inr hv
    · rintro (hnil | hv)
      · exact absurd hnil not_closes_nil
      · exact Or.inr hv
  | cons x u ih =>
    rw [List.cons_append, List.infix_cons_iff, List.infix_cons_iff, ih, or_assoc]
    refine or_congr_left' fun _ => ?_
    rw [List.cons_prefix_cons, List.cons_prefix_cons]
    refine and_congr_right fun _ => ?_
    -- what follows the star is in the front, or it is the character itself
    cases u with
    | nil =>
      rw [List.nil_append, List.cons_prefix_cons]
      constructor
      · rintro ⟨hc, _⟩
        exact absurd hc.symm hslash
      · intro hnil
        exact absurd (List.prefix_nil.mp hnil) (by simp)
    | cons y u => simp only [List.cons_append, List.cons_prefix_cons, List.nil_prefix]

theorem closes_concat (hslash : c ≠ '/') : Closes (u ++ [c]) ↔ Closes u := by
  unfold Closes
  rw [List.infix_concat_iff]
  refine or_iff_right fun hsuffix => ?_
  obtain ⟨before, hb⟩ := hsuffix
  have hlast := congrArg List.getLast? hb
  simp only [List.getLast?_append, List.getLast?_cons_cons, List.getLast?_singleton, Option.some_or,
    Option.some.injEq] at hlast
  exact hslash hlast.symm

/-- A comment is closed once exactly if it is not closed before. -/
theorem closesOnce_append_iff (body : List Char) : ClosesOnce (body ++ ['*', '/']) ↔ ¬ Closes body := by
  constructor
  · rintro ⟨_, honce⟩ ⟨before, behind, hbody⟩
    have hempty := honce before (behind ++ ['*', '/']) (by rw [← hbody]; simp)
    simp at hempty
  · intro hnot
    refine ⟨⟨body, rfl⟩, fun before behind hsplit => ?_⟩
    by_contra hne
    obtain ⟨init, x, rfl⟩ := (List.eq_nil_or_concat behind).resolve_left hne
    -- without its last character the comment is still closed, so it was closed before
    have hfront : body ++ ['*'] = before ++ ['*', '/'] ++ init := by
      rw [List.concat_eq_append, List.append_cons, ← List.append_assoc] at hsplit
      exact (List.append_inj' hsplit rfl).1
    refine hnot ((closes_concat (c := '*') (by decide)).mp ?_)
    exact ⟨before, init, hfront.symm⟩

theorem closes_joined_iff (texts : List String) :
    Closes (joined "," texts).toList ↔ ∃ t ∈ texts, Closes t.toList := by
  induction texts with
  | nil => simp [joined, not_closes_nil]
  | cons s rest ih =>
    cases rest with
    | nil => simp [joined]
    | cons t rest =>
      have hchars : (joined "," (s :: t :: rest)).toList =
          s.toList ++ ',' :: (joined "," (t :: rest)).toList := by
        simp [joined, String.toList_append]
      rw [hchars, closes_append_cons (by decide) (by decide), ih]
      simp

/-! ## Types in comments -/

mutual

/-- The texts that are printed for a type: the type itself, or those of the members of a tuple and what
follows its word. -/
def typeTexts : Argument → List String
  | ⟨type, _, _, components⟩ =>
    match tupleSuffix? type with
    | some suffix => suffix :: allTypeTexts components
    | none => [type]

def allTypeTexts : List Argument → List String
  | [] => []
  | a :: rest => typeTexts a ++ allTypeTexts rest

end

mutual

/-- **The spelling of a type closes a comment only inside one of its texts.** -/
theorem closes_canonicalType_iff :
    ∀ a : Argument, Closes a.canonicalType.toList ↔ ∃ t ∈ typeTexts a, Closes t.toList
  | ⟨type, name, internalType, components⟩ => by
    unfold Argument.canonicalType typeTexts
    cases tupleSuffix? type with
    | none => simp
    | some suffix =>
      have hchars : ("(" ++ joined "," (canonicalTypes components) ++ ")" ++ suffix).toList =
          [] ++ '(' :: ((joined "," (canonicalTypes components)).toList ++ ')' :: suffix.toList) := by
        simp [String.toList_append]
      simp only [hchars]
      rw [closes_append_cons (by decide) (by decide), closes_append_cons (by decide) (by decide),
        closes_joined_iff, closes_canonicalTypes_iff components]
      simp [not_closes_nil, or_comm]

theorem closes_canonicalTypes_iff :
    ∀ as : List Argument, (∃ t ∈ canonicalTypes as, Closes t.toList) ↔
      ∃ t ∈ allTypeTexts as, Closes t.toList
  | [] => by simp [canonicalTypes, allTypeTexts]
  | a :: rest => by
    rw [canonicalTypes, allTypeTexts, List.exists_mem_cons_iff, closes_canonicalType_iff a,
      closes_canonicalTypes_iff rest]
    simp only [List.mem_append, or_and_right, exists_or]

end

theorem closes_canonicalOf_iff (f : Function) :
    Closes (Signature.canonicalOf f).toList ↔
      Closes f.name.toList ∨ ∃ t ∈ allTypeTexts f.inputs, Closes t.toList := by
  have hchars : (Signature.canonicalOf f).toList =
      f.name.toList ++ '(' :: ((joined "," (canonicalTypes f.inputs)).toList ++ [')']) := by
    simp [Signature.canonicalOf, String.toList_append]
  rw [hchars, closes_append_cons (by decide) (by decide), closes_concat (by decide), closes_joined_iff,
    closes_canonicalTypes_iff]

theorem star_not_mem_hex (bytes : List UInt8) : '*' ∉ (Hex.ofBytes bytes).toList := by
  have hdigit : ∀ n < 16, Hex.digit n ≠ '*' := by decide
  rw [Hex.ofBytes, String.toList_ofList, List.mem_flatMap]
  rintro ⟨b, _, hb⟩
  have hbound := b.toNat_lt
  rcases List.mem_pair.mp hb with h | h
  · exact hdigit _ (by omega) h.symm
  · exact hdigit _ (by omega) h.symm

/-- **The comment of a function is closed once exactly if** neither its name nor a type of its parameters
holds the end of a comment. -/
theorem closesOnce_memberComment_iff (f : Function) :
    ClosesOnce (memberComment (Signature.ofFunction f)).toList ↔
      ¬ Closes f.name.toList ∧ ∀ t ∈ allTypeTexts f.inputs, ¬ Closes t.toList := by
  have hword : ∀ m : Mutability, '*' ∉ m.word.toList := by
    intro m
    cases m <;> decide
  have hselector := star_not_mem_hex (Signature.selectorOf (Signature.canonicalOf f))
  generalize hrest : " selector `0x".toList
    ++ (Hex.ofBytes (Signature.selectorOf (Signature.canonicalOf f))).toList ++ "`, ".toList
    ++ f.mutability.word.toList ++ [' '] = rest
  have hchars : (memberComment (Signature.ofFunction f)).toList =
      ("/** ".toList ++ '`' :: ((Signature.canonicalOf f).toList ++ '`' :: rest)) ++ ['*', '/'] := by
    rw [← hrest]
    simp [memberComment, Signature.ofFunction, String.toList_append]
  have hplain : ¬ Closes rest := by
    intro h
    have hstar := h.mem.1
    rw [← hrest] at hstar
    simp only [List.mem_append] at hstar
    rcases hstar with (((h | h) | h) | h) | h
    · exact absurd h (by decide)
    · exact hselector h
    · exact absurd h (by decide)
    · exact hword _ h
    · exact absurd h (by decide)
  have hopen : ¬ Closes "/** ".toList := by decide
  rw [hchars, closesOnce_append_iff, closes_append_cons (by decide) (by decide),
    closes_append_cons (by decide) (by decide), closes_canonicalOf_iff]
  simp only [hopen, hplain, false_or, or_false, not_or, not_exists, not_and]

/-! ## The line of a function -/

/-- A character of an identifier, or of the punctuation of types. -/
def isMemberChar (c : Char) : Bool :=
  isIdentifierPart c || " ,:()<>[]\x7b\x7d`".toList.contains c

/-- A text of such characters. -/
def isMemberText (text : String) : Bool := text.toList.all isMemberChar

theorem isMemberText_append {s t : String} :
    isMemberText (s ++ t) = true ↔ isMemberText s = true ∧ isMemberText t = true := by
  simp [isMemberText, String.toList_append, List.all_append]

theorem isMemberText_joined {texts : List String} (h : ∀ t ∈ texts, isMemberText t = true) :
    isMemberText (joined ", " texts) = true := by
  induction texts with
  | nil => rfl
  | cons s rest ih =>
    cases rest with
    | nil => exact h s (by simp)
    | cons t rest =>
      rw [joined, isMemberText_append, isMemberText_append]
      exact ⟨⟨h s (by simp), by cbv⟩, ih fun t ht => h t (List.mem_cons_of_mem _ ht)⟩

theorem isMemberText_render (type : HostType) : isMemberText type.render = true := by
  induction type with
  | array element ih =>
    rw [HostType.render, isMemberText_append]
    exact ⟨ih, by cbv⟩
  | _ => cbv

theorem isMemberText_repr (n : Nat) : isMemberText (Nat.repr n) = true := by
  rw [isMemberText, List.all_eq_true]
  intro c hc
  have hdigit : c.isDigit = true := by
    rw [Nat.repr, String.toList_ofList] at hc
    exact Nat.isDigit_of_mem_toDigits (by decide) (by decide) hc
  simp [isMemberChar, isIdentifierPart, Char.isAlphanum, hdigit]

/-- **Names of parameters become identifiers.** -/
theorem isMemberText_sanitize (name : String) : isMemberText (sanitize name) = true := by
  have hchar : ∀ c, isMemberChar (sanitizeChar c) = true := by
    intro c
    unfold sanitizeChar
    split
    · rename_i h
      simp [isMemberChar, h]
    · decide
  have hchars : ∀ c ∈ name.toList.map sanitizeChar, isMemberChar c = true := by
    intro c hc
    obtain ⟨d, _, rfl⟩ := List.mem_map.mp hc
    exact hchar d
  rw [isMemberText, sanitize, String.toList_ofList, List.all_eq_true]
  intro c hc
  unfold guardStart at hc
  split at hc
  · rw [List.mem_singleton.mp hc]
    decide
  · rename_i first rest hname
    rw [hname] at hchars
    split at hc
    · rcases List.mem_cons.mp hc with rfl | hc
      · decide
      · exact hchars c hc
    · exact hchars c hc

theorem isMemberText_parameterName (name : String) (index : Nat) :
    isMemberText (parameterName name index) = true := by
  unfold parameterName
  split
  · exact isMemberText_append.mpr ⟨by cbv, isMemberText_repr index⟩
  · simp only
    split
    · exact isMemberText_append.mpr ⟨by cbv, isMemberText_sanitize name⟩
    · exact isMemberText_sanitize name

theorem isMemberText_distinctName {base : String} (hbase : isMemberText base = true)
    (taken : List String) (index : Nat) : isMemberText (distinctName taken base index) = true := by
  have hnumbered : ∀ n, isMemberText (numbered base n) = true := by
    intro n
    exact isMemberText_append.mpr ⟨isMemberText_append.mpr ⟨hbase, by cbv⟩, isMemberText_repr n⟩
  have hfirst : ∀ tries n, isMemberText (firstFree taken base n tries) = true := by
    intro tries
    induction tries with
    | zero => exact hnumbered
    | succ tries ih =>
      intro n
      unfold firstFree
      split
      · exact ih (n + 1)
      · exact hnumbered n
  unfold distinctName
  split
  · exact hfirst _ _
  · exact hbase

theorem isMemberText_distinctNames (taken : List String) (index : Nat) (parameters : List Parameter) :
    ∀ name ∈ distinctNames taken index parameters, isMemberText name = true := by
  induction parameters generalizing taken index with
  | nil =>
    intro name hname
    cases hname
  | cons p rest ih =>
    intro name hname
    rw [distinctNames] at hname
    rcases List.mem_cons.mp hname with rfl | hname
    · exact isMemberText_distinctName (isMemberText_parameterName p.name index) taken index
    · exact ih _ _ name hname

theorem isMemberText_zipWith {names : List String} {ps : List Parameter} {t : String}
    (hnames : ∀ name ∈ names, isMemberText name = true)
    (ht : t ∈ List.zipWith (fun name (p : Parameter) => typed name p.type) names ps) :
    isMemberText t = true := by
  induction names generalizing ps with
  | nil => cases ht
  | cons name names ih =>
    cases ps with
    | nil => cases ht
    | cons p ps =>
      rw [List.zipWith_cons_cons] at ht
      rcases List.mem_cons.mp ht with rfl | ht
      · unfold typed
        rw [isMemberText_append, isMemberText_append]
        exact ⟨⟨hnames name (by simp), by cbv⟩, isMemberText_render p.type⟩
      · exact ih (fun n hn => hnames n (List.mem_cons_of_mem _ hn)) ht

theorem isMemberText_returnType (returns : Returns) : isMemberText (returnType returns) = true := by
  cases returns with
  | transaction => cbv
  | bare type => exact isMemberText_render type
  | tuple outputs =>
    have helements : ∀ t ∈ tupleElements outputs, isMemberText t = true := by
      intro t ht
      unfold tupleElements at ht
      split at ht
      · refine isMemberText_zipWith ?_ ht
        intro name hname
        obtain ⟨i, _, rfl⟩ := List.mem_mapIdx.mp hname
        exact isMemberText_parameterName _ _
      · obtain ⟨output, _, rfl⟩ := List.mem_map.mp ht
        exact isMemberText_render output.type
    rw [returnType, isMemberText_append, isMemberText_append]
    exact ⟨⟨by cbv, isMemberText_joined helements⟩, by cbv⟩

/-- **Behind the name of a function its line holds nothing from outside** but identifiers. -/
theorem exists_member_eq (s : Signature) :
    ∃ rest, member s = s.name ++ "(" ++ rest ∧ isMemberText rest = true := by
  refine ⟨joined ", " (parameterList s.parameters) ++ "): Promise<" ++ returnType s.returns ++ ">",
    by simp only [member, String.append_assoc], ?_⟩
  have hlist : isMemberText (joined ", " (parameterList s.parameters)) = true := by
    refine isMemberText_joined fun t ht => ?_
    exact isMemberText_zipWith (isMemberText_distinctNames [] 0 s.parameters) ht
  simp only [isMemberText_append]
  exact ⟨⟨⟨hlist, by cbv⟩, isMemberText_returnType s.returns⟩, by cbv⟩

/-! ## Modules -/

/-- Nothing from outside leaves its slot: the banner is one line, every comment is closed once, and every
member is named by an identifier. -/
structure IsContained (contract : String) (bound : List Signature) : Prop where
  banner : IsOneLine (banner contract)
  comments : ∀ s ∈ bound, ClosesOnce (memberComment s).toList
  names : ∀ s ∈ bound, isIdentifier s.name = true

theorem not_closes_of_isIdentifier {name : String} (h : isIdentifier name = true) :
    ¬ Closes name.toList := by
  intro hcloses
  have hstar := hcloses.mem.1
  unfold isIdentifier at h
  split at h
  · cases h
  · rename_i c rest hname
    rw [Bool.and_eq_true, List.all_eq_true] at h
    rw [hname] at hstar
    rcases List.mem_cons.mp hstar with rfl | hstar
    · exact absurd h.1 (by decide)
    · exact absurd (h.2 _ hstar) (by decide)

/-- **A module is contained exactly if** its names and types are. -/
theorem isContained_iff (contract : String) (functions : List Function) :
    IsContained contract (functions.map Signature.ofFunction) ↔ hasNoBreak contract = true ∧
      ∀ f ∈ functions, isIdentifier f.name = true ∧
        ∀ t ∈ allTypeTexts f.inputs, ¬ Closes t.toList := by
  constructor
  · rintro ⟨hbanner, hcomments, hnames⟩
    refine ⟨(isOneLine_banner_iff contract).mp hbanner, fun f hf => ?_⟩
    have hmem := List.mem_map_of_mem (f := Signature.ofFunction) hf
    exact ⟨hnames _ hmem, ((closesOnce_memberComment_iff f).mp (hcomments _ hmem)).2⟩
  · rintro ⟨hbreak, hfunctions⟩
    refine ⟨(isOneLine_banner_iff contract).mpr hbreak, fun s hs => ?_, fun s hs => ?_⟩
    · obtain ⟨f, hf, rfl⟩ := List.mem_map.mp hs
      obtain ⟨hname, htypes⟩ := hfunctions f hf
      exact (closesOnce_memberComment_iff f).mpr ⟨not_closes_of_isIdentifier hname, htypes⟩
    · obtain ⟨f, hf, rfl⟩ := List.mem_map.mp hs
      exact (hfunctions f hf).1

theorem ofDocument_eq (d : Document) : Signature.ofDocument d = d.functions.map Signature.ofFunction := by
  rw [Signature.ofDocument, Document.functions, List.map_filterMap]
  refine List.filterMap_congr fun item _ => ?_
  cases item <;> rfl

theorem exists_map_eq {α β : Type} {f : α → β} {xs : List α} {ys : List β}
    (h : ∀ y ∈ ys, y ∈ xs.map f) : ∃ zs : List α, ys = zs.map f ∧ ∀ z ∈ zs, z ∈ xs := by
  induction ys with
  | nil => exact ⟨[], rfl, by simp⟩
  | cons y ys ih =>
    obtain ⟨x, hx, rfl⟩ := List.mem_map.mp (h y (by simp))
    obtain ⟨zs, rfl, hzs⟩ := ih fun y hy => h y (List.mem_cons_of_mem _ hy)
    refine ⟨x :: zs, rfl, fun z hz => ?_⟩
    rcases List.mem_cons.mp hz with rfl | hz
    · exact hx
    · exact hzs z hz

/-- The members of a document are signatures of its functions. -/
theorem exists_members_eq (d : Document) :
    ∃ functions : List Function, members (Signature.ofDocument d) = functions.map Signature.ofFunction ∧
      ∀ f ∈ functions, f ∈ d.functions := by
  refine exists_map_eq fun s hs => ?_
  rw [← ofDocument_eq]
  exact List.mem_of_mem_filter (List.mem_of_getLast? (eq_last_of_mem_members hs))

/--
**Where text from outside stands in a module, and when it stays there.**  The banner holds the contract's
name as it is, and for each function name, the comment and the line of the last function hold its name and
the types of its parameters as they are; behind the name its line holds nothing else from outside than
identifiers.  So a module is contained exactly if the contract's name has no line break, and every function
is named by an identifier and has no type that holds the end of a comment.
-/
theorem render_slots (dialect : Dialect) (contract : String) (d : Document) :
    ∃ functions : List Function,
      (∀ f ∈ functions, f ∈ d.functions) ∧
      BindsLast (Signature.ofDocument d) (functions.map Signature.ofFunction) ∧
      (BindingModule.render dialect contract d (Signature.ofDocument d)).source =
        banner contract ++ "\n" ++ importLine dialect (functions.map Signature.ofFunction) ++ "\n"
          ++ abiConstant (sanitize contract) (abiLiteral d) ++ "\n"
          ++ ("export type " ++ sanitize contract ++ "_Contract = Contract & \x7b"
            ++ (if functions = [] then "" else "\n")
            ++ String.join (functions.map fun f =>
              "\t" ++ memberComment (Signature.ofFunction f) ++ "\n" ++ "\t"
                ++ member (Signature.ofFunction f) ++ "\n")
            ++ "\x7d\n")
          ++ "\n" ++ factory (sanitize contract) (parameterName dialect.runnerParameter 0) ∧
      (IsOneLine (banner contract) ↔ hasNoBreak contract = true) ∧
      (∀ f ∈ functions,
        (ClosesOnce (memberComment (Signature.ofFunction f)).toList ↔
          ¬ Closes f.name.toList ∧ ∀ t ∈ allTypeTexts f.inputs, ¬ Closes t.toList) ∧
        ∃ rest, member (Signature.ofFunction f) = f.name ++ "(" ++ rest ∧ isMemberText rest = true) ∧
      (IsContained contract (functions.map Signature.ofFunction) ↔ hasNoBreak contract = true ∧
        ∀ f ∈ functions, isIdentifier f.name = true ∧
          ∀ t ∈ allTypeTexts f.inputs, ¬ Closes t.toList) := by
  obtain ⟨functions, hmembers, hfunctions⟩ := exists_members_eq d
  refine ⟨functions, hfunctions, hmembers ▸ bindsLast_members _, ?_, isOneLine_banner_iff contract,
    fun f _ => ⟨closesOnce_memberComment_iff f, exists_member_eq _⟩, isContained_iff contract functions⟩
  show _ ++ importLine dialect (members (Signature.ofDocument d)) ++ _ ++ _ ++ _
    ++ contractType (sanitize contract) (members (Signature.ofDocument d)) ++ _ ++ _ = _
  rw [hmembers, contractType_eq, List.map_map]
  simp only [List.map_eq_nil_iff]
  rfl

/-- A document with one function of one parameter. -/
def oneFunction (name type : String) : Document :=
  ⟨[.object [("type", .string "function"), ("name", .string name),
    ("inputs", .array [.object [("type", .string type)]])]]⟩

/-- The module of a document with one function is not contained, if its name is no identifier or its type
holds the end of a comment. -/
theorem not_isContained_of_function {d : Document} {f : Function} (hd : d.functions = [f])
    (h : isIdentifier f.name = false ∨ ∃ t ∈ allTypeTexts f.inputs, Closes t.toList) (contract : String) :
    ¬ IsContained contract (members (Signature.ofDocument d)) := by
  have hmembers : members (Signature.ofDocument d) = [f].map Signature.ofFunction := by
    rw [ofDocument_eq, hd]
    rfl
  rw [hmembers, isContained_iff]
  rintro ⟨_, hfunctions⟩
  obtain ⟨hname, htypes⟩ := hfunctions f (by simp)
  rcases h with h | ⟨t, ht, hcloses⟩
  · rw [hname] at h
    cases h
  · exact htypes t ht hcloses

/--
**Modules that are not contained**: the name of a contract with a line break, of a function with the end of
a comment, and a type with one.
-/
theorem not_isContained_sample :
    (Document.ofText "\x7b\"abi\":[]\x7d" = .ok ⟨[]⟩ ∧
      ¬ IsContained "T\nU" (members (Signature.ofDocument ⟨[]⟩))) ∧
    (Document.ofText
        "\x7b\"abi\":[\x7b\"type\":\"function\",\"name\":\"a */ b\",\"inputs\":[\x7b\"type\":\"bool\"\x7d]\x7d]\x7d"
        = .ok (oneFunction "a */ b" "bool") ∧
      ¬ IsContained "T" (members (Signature.ofDocument (oneFunction "a */ b" "bool")))) ∧
    (Document.ofText
        "\x7b\"abi\":[\x7b\"type\":\"function\",\"name\":\"f\",\"inputs\":[\x7b\"type\":\"a */ b\"\x7d]\x7d]\x7d"
        = .ok (oneFunction "f" "a */ b") ∧
      ¬ IsContained "T" (members (Signature.ofDocument (oneFunction "f" "a */ b")))) := by
  refine ⟨⟨by cbv, fun hcontained => ?_⟩, ⟨by cbv, ?_⟩, ⟨by cbv, ?_⟩⟩
  · have hbreak := (isOneLine_banner_iff _).mp hcontained.banner
    exact absurd hbreak (by decide)
  · exact not_isContained_of_function (f := ⟨"a */ b", [⟨"bool", "", "", []⟩], [], .nonpayable⟩)
      (by cbv) (Or.inl (by decide)) "T"
  · have htexts : allTypeTexts [⟨"a */ b", "", "", []⟩] = ["a */ b"] := by cbv
    refine not_isContained_of_function (f := ⟨"f", [⟨"a */ b", "", "", []⟩], [], .nonpayable⟩)
      (by cbv) (Or.inr ⟨"a */ b", ?_, by decide⟩) "T"
    rw [htexts]
    exact List.mem_singleton.mpr rfl

end ContractBindings.Binding
