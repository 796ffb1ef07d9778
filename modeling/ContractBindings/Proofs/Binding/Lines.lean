import ContractBindings.Proofs.Binding.ParameterNames
import ContractBindings.Proofs.HostType.Nesting
import ContractBindings.Proofs.Text.Joined

/-!
# Lines of members are unambiguous

The line of a function is a name, named types and what the call resolves to (`Line`), and it says all of
that.

* `render_unique`: the spelling of a type says where it ends and which type it is;
* `Slot.text_unique`, `slots_unique`: so does a type with or without a name, and a list of them up to the
  parenthesis or bracket that closes it;
* `Line.eq_of_text_eq`: two lines with one text are one line;
* `member_unambiguous`: functions with the same line have the same name, take the same types and resolve to
  the same types in the same way.
-/

set_option autoImplicit false

namespace ContractBindings

open Text

/-! ## Types -/

namespace HostType

/-- The types that are no arrays. -/
def scalars : List HostType :=
  [integer, bytesLike, addressLike, hexString, string, bool, unknown]

theorem innermost_mem_scalars (type : HostType) : type.innermost ∈ scalars := by
  induction type with
  | array element ih => exact ih
  | _ => decide

/-- A character that stands behind a type in a line. -/
def endsType (c : Char) : Bool := c == ',' || c == ')' || c == ']' || c == '>'

/-- A character that stands behind a name or an innermost type in a line. -/
def endsWord (c : Char) : Bool := endsType c || c == ':' || c == '['

/-- A text that goes on behind a type. -/
def GoesOn (cs : List Char) : Prop := ∀ c ∈ cs.head?, endsType c = true

variable {a b : HostType} {r r' : List Char} {n m : Nat}

theorem goesOn_cons {c : Char} (h : endsType c = true) : GoesOn (c :: r) := by simpa [GoesOn] using h

theorem endsWord_of_innermost (type : HostType) :
    ∀ c ∈ type.innermost.render.toList, endsWord c = false := by
  have hwords : ∀ t ∈ scalars, (t.render.toList.all fun c => !endsWord c) = true := by decide
  intro c hc
  simpa using List.all_eq_true.mp (hwords _ type.innermost_mem_scalars) c hc

/-- The characters that the spelling of a type begins with. -/
def firstLetters : List Char := ['b', 'B', 'A', '`', 's', 'u']

theorem exists_render_cons (type : HostType) :
    ∃ c cs, type.render.toList = c :: cs ∧ c ∈ firstLetters := by
  induction type with
  | array element ih =>
    obtain ⟨c, cs, hchars, hc⟩ := ih
    exact ⟨c, cs ++ "[]".toList, by rw [render, String.toList_append, hchars]; rfl, hc⟩
  | _ => exact ⟨_, _, rfl, by decide⟩

theorem eq_of_innermost_render (h : a.innermost.render = b.innermost.render) :
    a.innermost = b.innermost := by
  have hdistinct : ∀ s ∈ scalars, ∀ t ∈ scalars, s.render = t.render → s = t := by decide
  exact hdistinct _ a.innermost_mem_scalars _ b.innermost_mem_scalars h

/-- Behind an innermost type stand brackets, or what stands behind the type. -/
theorem endsWord_brackets (hr : GoesOn r) : ∀ c ∈ ((brackets n).toList ++ r).head?, endsWord c = true := by
  intro c hc
  cases n with
  | zero =>
    rw [endsWord, hr c (by simpa [brackets] using hc)]
    rfl
  | succ n =>
    rw [toList_brackets_succ] at hc
    obtain rfl : '[' = c := by simpa using hc
    decide

/-- The number of brackets is known: none of them stands behind the type. -/
theorem brackets_unique (hr : GoesOn r) (hr' : GoesOn r')
    (h : (brackets n).toList ++ r = (brackets m).toList ++ r') : n = m ∧ r = r' := by
  have hbracket : ∀ (k : Nat) (u v : List Char), GoesOn u → u ≠ (brackets (k + 1)).toList ++ v := by
    rintro k u v hu rfl
    have hopen := hu '[' (by simp [toList_brackets_succ])
    exact absurd hopen (by decide)
  induction n generalizing m with
  | zero =>
    cases m with
    | zero => exact ⟨rfl, by simpa [brackets] using h⟩
    | succ m => exact absurd (by simpa [brackets] using h) (hbracket m r r' hr)
  | succ n ih =>
    cases m with
    | zero => exact absurd (by simpa [brackets] using h.symm) (hbracket n r' r hr')
    | succ m =>
      rw [toList_brackets_succ, toList_brackets_succ] at h
      obtain ⟨rfl, hrests⟩ := ih (by simpa using h)
      exact ⟨rfl, hrests⟩

theorem toList_render (type : HostType) :
    type.render.toList = type.innermost.render.toList ++ (brackets type.depth).toList := by
  rw [← String.toList_append, ← render_nest, nest_innermost]

/-- **The spelling of a type is read in one way**, whatever goes on behind it. -/
theorem render_unique (hr : GoesOn r) (hr' : GoesOn r')
    (h : a.render.toList ++ r = b.render.toList ++ r') : a = b ∧ r = r' := by
  rw [toList_render a, toList_render b, List.append_assoc, List.append_assoc] at h
  obtain ⟨hword, hbehind⟩ := eq_of_append_eq endsWord a.endsWord_of_innermost b.endsWord_of_innermost
    (endsWord_brackets hr) (endsWord_brackets hr') h
  obtain ⟨hdepth, hrests⟩ := brackets_unique hr hr' hbehind
  have hinner := eq_of_innermost_render (String.toList_injective hword)
  exact ⟨by rw [← nest_innermost a, ← nest_innermost b, hinner, hdepth], hrests⟩

end HostType

namespace Binding

open HostType

/-! ## Slots -/

/-- A type in a line, with a name in front of it if it has one. -/
structure Slot where
  name : Option String
  type : HostType

namespace Slot

def text (s : Slot) : String :=
  match s.name with
  | some name => typed name s.type
  | none => s.type.render

/-- The name of a slot is an identifier. -/
def IsLegible (s : Slot) : Prop := ∀ name ∈ s.name, isIdentifier name = true

variable {s t : Slot} {r r' : List Char}

theorem isIdentifierPart_of_endsWord (c : Char) (h : endsWord c = true) : isIdentifierPart c = false := by
  simp only [endsWord, endsType, Bool.or_eq_true, beq_iff_eq] at h
  rcases h with ((((rfl | rfl) | rfl) | rfl) | rfl) | rfl <;> decide

theorem endsWord_of_isIdentifier {name : String} (h : isIdentifier name = true) :
    ∀ c ∈ name.toList, endsWord c = false :=
  stop_of_isIdentifier isIdentifierPart_of_endsWord h

theorem toList_typed (name : String) (type : HostType) (r : List Char) :
    (typed name type).toList ++ r = name.toList ++ ':' :: ' ' :: (type.render.toList ++ r) := by
  simp [typed, String.toList_append]

/-- A name is not read as a type: behind it stands a colon. -/
theorem typed_ne_render {name : String} {a b : HostType} (hname : isIdentifier name = true)
    (hr' : GoesOn r') : (typed name a).toList ++ r ≠ b.render.toList ++ r' := by
  intro h
  rw [toList_typed, toList_render b, List.append_assoc] at h
  obtain ⟨-, hbehind⟩ := eq_of_append_eq endsWord (endsWord_of_isIdentifier hname)
    b.endsWord_of_innermost (by simp [endsWord]) (endsWord_brackets hr') h
  cases hdepth : b.depth with
  | zero =>
    have hrest : r' = ':' :: ' ' :: (a.render.toList ++ r) := by
      simpa [hdepth, brackets] using hbehind.symm
    have hcolon := hr' ':' (by simp [hrest])
    exact absurd hcolon (by decide)
  | succ n =>
    rw [hdepth, toList_brackets_succ] at hbehind
    exact absurd (List.cons.inj hbehind).1 (by decide)

/-- **A slot is read in one way**, whatever goes on behind it. -/
theorem text_unique (hs : s.IsLegible) (ht : t.IsLegible) (hr : GoesOn r) (hr' : GoesOn r')
    (h : s.text.toList ++ r = t.text.toList ++ r') : s = t ∧ r = r' := by
  obtain ⟨sname, a⟩ := s
  obtain ⟨tname, b⟩ := t
  cases sname with
  | none =>
    cases tname with
    | none =>
      obtain ⟨rfl, hrests⟩ := render_unique hr hr' h
      exact ⟨rfl, hrests⟩
    | some name => exact absurd h.symm (typed_ne_render (ht name rfl) hr)
  | some sname =>
    cases tname with
    | none => exact absurd h (typed_ne_render (hs sname rfl) hr')
    | some tname =>
      rw [text, text, toList_typed, toList_typed] at h
      obtain ⟨hnames, hbehind⟩ := eq_of_append_eq endsWord (endsWord_of_isIdentifier (hs sname rfl))
        (endsWord_of_isIdentifier (ht tname rfl)) (by simp [endsWord]) (by simp [endsWord]) h
      obtain ⟨rfl, hrests⟩ := render_unique hr hr' (by simpa using hbehind)
      exact ⟨by rw [String.toList_injective hnames], hrests⟩

theorem exists_text_cons (hs : s.IsLegible) :
    ∃ c cs, s.text.toList = c :: cs ∧ endsWord c = false := by
  obtain ⟨sname, a⟩ := s
  cases sname with
  | none =>
    have hletters : (firstLetters.all fun c => !endsWord c) = true := by decide
    obtain ⟨c, cs, hchars, hc⟩ := a.exists_render_cons
    exact ⟨c, cs, hchars, by simpa using List.all_eq_true.mp hletters c hc⟩
  | some name =>
    obtain ⟨c, cs, hname, -, -⟩ := isIdentifier_iff.mp (hs name rfl)
    have hc := endsWord_of_isIdentifier (hs name rfl) c (by simp [hname])
    exact ⟨c, cs ++ ':' :: ' ' :: a.render.toList, by simp [text, typed, hname], hc⟩

/-- No slot begins with what closes a list. -/
theorem cons_ne_text {close : Char} (hclose : endsType close = true) (hs : s.IsLegible) (u v : List Char) :
    close :: u ≠ s.text.toList ++ v := by
  intro h
  obtain ⟨c, cs, htext, hc⟩ := exists_text_cons hs
  rw [htext, List.cons_append] at h
  obtain ⟨rfl, -⟩ := List.cons.inj h
  rw [endsWord, hclose] at hc
  cases hc

/-! ## Lists of slots -/

variable {xs ys : List Slot} {close : Char}

theorem goesOn_rest (xs : List Slot) (hclose : endsType close = true) :
    GoesOn ((xs.flatMap fun t => ", ".toList ++ t.text.toList) ++ close :: r) := by
  cases xs with
  | nil => exact goesOn_cons hclose
  | cons x xs => exact goesOn_cons (by decide)

/-- Slots with a comma in front of each are known up to what closes the list. -/
theorem rest_unique (hclose : endsType close = true) (hcomma : close ≠ ',')
    (hxs : ∀ s ∈ xs, s.IsLegible) (hys : ∀ s ∈ ys, s.IsLegible)
    (h : (xs.flatMap fun t => ", ".toList ++ t.text.toList) ++ close :: r =
      (ys.flatMap fun t => ", ".toList ++ t.text.toList) ++ close :: r') : xs = ys ∧ r = r' := by
  induction xs generalizing ys with
  | nil =>
    cases ys with
    | nil => exact ⟨rfl, (List.cons.inj h).2⟩
    | cons y ys => exact absurd (List.cons.inj h).1 hcomma
  | cons x xs ih =>
    cases ys with
    | nil => exact absurd (List.cons.inj h).1.symm hcomma
    | cons y ys =>
      rw [List.flatMap_cons, List.flatMap_cons, List.append_assoc, List.append_assoc, List.append_assoc,
        List.append_assoc, List.append_cancel_left_eq] at h
      obtain ⟨rfl, hbehind⟩ := text_unique (hxs x (by simp)) (hys y (by simp)) (goesOn_rest xs hclose)
        (goesOn_rest ys hclose) h
      obtain ⟨rfl, hrests⟩ := ih (fun s hs => hxs s (List.mem_cons_of_mem _ hs))
        (fun s hs => hys s (List.mem_cons_of_mem _ hs)) hbehind
      exact ⟨rfl, hrests⟩

end Slot

/-- Slots with commas between them. -/
def listed (slots : List Slot) : String := joined ", " (slots.map Slot.text)

theorem toList_listed_cons (s : Slot) (slots : List Slot) :
    (listed (s :: slots)).toList =
      s.text.toList ++ slots.flatMap fun t => ", ".toList ++ t.text.toList := by
  rw [listed, List.map_cons, toList_joined_cons, List.flatMap_map]

/-- **A list of slots is read in one way**, up to what closes it. -/
theorem slots_unique {close : Char} (hclose : endsType close = true) (hcomma : close ≠ ',')
    {xs ys : List Slot} {r r' : List Char} (hxs : ∀ s ∈ xs, s.IsLegible) (hys : ∀ s ∈ ys, s.IsLegible)
    (h : (listed xs).toList ++ close :: r = (listed ys).toList ++ close :: r') : xs = ys ∧ r = r' := by
  cases xs with
  | nil =>
    cases ys with
    | nil => exact ⟨rfl, (List.cons.inj h).2⟩
    | cons y ys =>
      rw [toList_listed_cons, List.append_assoc] at h
      exact absurd h (Slot.cons_ne_text hclose (hys y (by simp)) r _)
  | cons x xs =>
    cases ys with
    | nil =>
      rw [toList_listed_cons, List.append_assoc] at h
      exact absurd h.symm (Slot.cons_ne_text hclose (hxs x (by simp)) r' _)
    | cons y ys =>
      rw [toList_listed_cons, toList_listed_cons, List.append_assoc, List.append_assoc] at h
      obtain ⟨rfl, hbehind⟩ := Slot.text_unique (hxs x (by simp)) (hys y (by simp))
        (Slot.goesOn_rest xs hclose) (Slot.goesOn_rest ys hclose) h
      obtain ⟨rfl, hrests⟩ := Slot.rest_unique hclose hcomma
        (fun s hs => hxs s (List.mem_cons_of_mem _ hs)) (fun s hs => hys s (List.mem_cons_of_mem _ hs))
        hbehind
      exact ⟨rfl, hrests⟩

/-! ## What a call resolves to -/

/-- What a line says about the values that a call resolves to. -/
inductive Result where
  | transaction
  | bare (type : HostType)
  | tuple (elements : List Slot)

namespace Result

def text : Result → String
  | transaction => transactionType
  | bare type => type.render
  | tuple elements => "readonly [" ++ listed elements ++ "]"

/-- The names of all elements are identifiers. -/
def IsLegible : Result → Prop
  | tuple elements => ∀ s ∈ elements, s.IsLegible
  | _ => True

/-- A result that is not a type does not begin like one. -/
theorem ne_render {c : Char} {cs : List Char} (hc : c ∉ firstLetters) (type : HostType) (r : List Char) :
    c :: cs ≠ type.render.toList ++ r := by
  intro h
  obtain ⟨d, ds, hchars, hd⟩ := type.exists_render_cons
  rw [hchars, List.cons_append] at h
  obtain ⟨rfl, -⟩ := List.cons.inj h
  exact hc hd

theorem text_tuple_append (elements : List Slot) (r : List Char) :
    (tuple elements).text.toList ++ r = "readonly [".toList ++ ((listed elements).toList ++ ']' :: r) := by
  simp [text, String.toList_append]

/-- **A result is read in one way**: its first letter tells its kind. -/
theorem text_unique {a b : Result} (ha : a.IsLegible) (hb : b.IsLegible) {r r' : List Char}
    (h : a.text.toList ++ '>' :: r = b.text.toList ++ '>' :: r') : a = b ∧ r = r' := by
  have hangle : GoesOn ('>' :: r) := goesOn_cons (by decide)
  have hangle' : GoesOn ('>' :: r') := goesOn_cons (by decide)
  cases a with
  | transaction =>
    cases b with
    | transaction => exact ⟨rfl, by simpa using h⟩
    | bare b => exact absurd h (ne_render (by decide) b _)
    | tuple elements =>
      rw [text_tuple_append] at h
      exact absurd (List.cons.inj h).1 (by decide)
  | bare a =>
    cases b with
    | transaction => exact absurd h.symm (ne_render (by decide) a _)
    | bare b =>
      obtain ⟨rfl, hrests⟩ := render_unique hangle hangle' h
      exact ⟨rfl, (List.cons.inj hrests).2⟩
    | tuple elements =>
      rw [text_tuple_append] at h
      exact absurd h.symm (ne_render (by decide) a _)
  | tuple xs =>
    rw [text_tuple_append] at h
    cases b with
    | transaction => exact absurd (List.cons.inj h).1 (by decide)
    | bare b => exact absurd h (ne_render (by decide) b _)
    | tuple ys =>
      rw [text_tuple_append, List.append_cancel_left_eq] at h
      obtain ⟨rfl, hrests⟩ := slots_unique (by decide) (by decide) ha hb h
      exact ⟨rfl, (List.cons.inj hrests).2⟩

end Result

/-! ## Lines -/

/-- The parts of a line. -/
structure Line where
  name : String
  parameters : List Slot
  result : Result

namespace Line

def text (l : Line) : String :=
  l.name ++ "(" ++ listed l.parameters ++ "): Promise<" ++ l.result.text ++ ">"

/-- The name of a line holds no parenthesis, and all other names in it are identifiers. -/
structure IsLegible (l : Line) : Prop where
  name : '(' ∉ l.name.toList
  parameters : ∀ s ∈ l.parameters, s.IsLegible
  result : l.result.IsLegible

theorem toList_text (l : Line) :
    l.text.toList = l.name.toList ++ '(' :: ((listed l.parameters).toList ++
      ')' :: (": Promise<".toList ++ (l.result.text.toList ++ ['>']))) := by
  simp [text, String.toList_append]

/-- **A line is read in one way.** -/
theorem eq_of_text_eq {k l : Line} (hk : k.IsLegible) (hl : l.IsLegible) (h : k.text = l.text) : k = l := by
  have hopen : ∀ name : String, '(' ∉ name.toList → ∀ c ∈ name.toList, (c == '(') = false := by
    intro name hname c hc
    rw [beq_eq_false_iff_ne]
    rintro rfl
    exact hname hc
  rw [← String.toList_inj, toList_text, toList_text] at h
  obtain ⟨hnames, hbehind⟩ := eq_of_append_eq (· == '(') (hopen _ hk.name) (hopen _ hl.name) (by simp)
    (by simp) h
  obtain ⟨hparameters, hresults⟩ := slots_unique (by decide) (by decide) hk.parameters hl.parameters
    (List.cons.inj hbehind).2
  rw [List.append_cancel_left_eq] at hresults
  obtain ⟨hresult, -⟩ := Result.text_unique hk.result hl.result hresults
  obtain ⟨kname, kparameters, kresult⟩ := k
  obtain ⟨lname, lparameters, lresult⟩ := l
  dsimp only at hnames hparameters hresult
  rw [String.toList_injective hnames, hparameters, hresult]

/-! ## The line of a function -/

/-- The parameters of a line, under the names that they are given. -/
def parameterSlots (parameters : List Parameter) : List Slot :=
  List.zipWith (fun name (p : Parameter) => ⟨some name, p.type⟩) (parameterNames parameters) parameters

/-- The elements of a tuple, with their labels if they are labelled. -/
def elementSlots (outputs : List Parameter) : List Slot :=
  if labelsAllowed outputs then
    List.zipWith (fun label (output : Parameter) => ⟨some label, output.type⟩) (labels outputs) outputs
  else outputs.map fun output => ⟨none, output.type⟩

/-- What a line says about the values that a call resolves to. -/
def resultOf : Returns → Result
  | .transaction => .transaction
  | .bare type => .bare type
  | .tuple outputs => .tuple (elementSlots outputs)

/-- The line of a signature. -/
def ofSignature (s : Signature) : Line := ⟨s.name, parameterSlots s.parameters, resultOf s.returns⟩

variable {s : Signature} {ps outputs : List Parameter}

theorem text_resultOf (returns : Returns) : (resultOf returns).text = returnType returns := by
  cases returns with
  | tuple outputs =>
    have helements : (elementSlots outputs).map Slot.text = tupleElements outputs := by
      unfold elementSlots tupleElements
      split
      · rw [List.map_zipWith]
        rfl
      · rw [List.map_map]
        rfl
    rw [resultOf, Result.text, listed, helements]
    rfl
  | _ => rfl

/-- **The text of a line is the line of the function.** -/
theorem text_ofSignature (s : Signature) : (ofSignature s).text = member s := by
  have hparameters : (parameterSlots s.parameters).map Slot.text = parameterList s.parameters :=
    List.map_zipWith ..
  rw [text, ofSignature, text_resultOf, listed, hparameters]
  rfl

theorem isLegible_zipWith {names : List String} (hnames : ∀ name ∈ names, isIdentifier name = true) :
    ∀ slot ∈ List.zipWith (fun name (p : Parameter) => (⟨some name, p.type⟩ : Slot)) names ps,
      slot.IsLegible := by
  intro slot hslot
  obtain ⟨i, hi, rfl⟩ := List.mem_iff_getElem.mp hslot
  rintro name hname
  rw [List.getElem_zipWith] at hname
  obtain rfl := Option.some.inj hname
  exact hnames _ (List.getElem_mem _)

/-- **All other names in the line of a function are identifiers.** -/
theorem isLegible_ofSignature (h : '(' ∉ s.name.toList) : (ofSignature s).IsLegible where
  name := h
  parameters := isLegible_zipWith fun _ hname => (isUsable_of_mem_distinctNames hname).identifier
  result := by
    show (resultOf s.returns).IsLegible
    cases s.returns with
    | tuple outputs =>
      show ∀ slot ∈ elementSlots outputs, slot.IsLegible
      unfold elementSlots
      split
      · refine isLegible_zipWith fun label hlabel => ?_
        obtain ⟨i, _, rfl⟩ := List.mem_mapIdx.mp hlabel
        exact (isUsable_parameterName _ _).identifier
      · intro slot hslot name hname
        obtain ⟨output, _, rfl⟩ := List.mem_map.mp hslot
        cases hname
    | _ => trivial

theorem map_type_zipWith {names : List String} (hlength : names.length = ps.length) :
    (List.zipWith (fun name (p : Parameter) => (⟨some name, p.type⟩ : Slot)) names ps).map Slot.type =
      ps.map Parameter.type := by
  induction names generalizing ps with
  | nil =>
    obtain rfl := List.length_eq_zero_iff.mp hlength.symm
    rfl
  | cons name names ih =>
    cases ps with
    | nil => cases hlength
    | cons p ps =>
      rw [List.zipWith_cons_cons, List.map_cons, List.map_cons, ih (by simpa using hlength)]

theorem map_type_parameterSlots (ps : List Parameter) :
    (parameterSlots ps).map Slot.type = ps.map Parameter.type :=
  map_type_zipWith (length_distinctNames [] 0 ps)

theorem map_type_elementSlots (outputs : List Parameter) :
    (elementSlots outputs).map Slot.type = outputs.map Parameter.type := by
  unfold elementSlots
  split
  · exact map_type_zipWith (by simp [labels])
  · rw [List.map_map]
    rfl

end Line

/-! ## Functions -/

/-- Two functions resolve to the same types in the same way. -/
inductive SameReturns : Returns → Returns → Prop where
  | transaction : SameReturns .transaction .transaction
  | bare (type : HostType) : SameReturns (.bare type) (.bare type)
  | tuple {outputs outputs' : List Parameter}
      (h : outputs.map Parameter.type = outputs'.map Parameter.type) :
      SameReturns (.tuple outputs) (.tuple outputs')

theorem sameReturns_of_resultOf {returns returns' : Returns}
    (h : Line.resultOf returns = Line.resultOf returns') : SameReturns returns returns' := by
  cases returns with
  | transaction =>
    cases returns' with
    | transaction => exact .transaction
    | _ => cases h
  | bare type =>
    cases returns' with
    | bare type' =>
      cases h
      exact .bare type
    | _ => cases h
  | tuple outputs =>
    cases returns' with
    | tuple outputs' =>
      have helements : Line.elementSlots outputs = Line.elementSlots outputs' := Result.tuple.inj h
      refine .tuple ?_
      rw [← Line.map_type_elementSlots, helements, Line.map_type_elementSlots]
    | _ => cases h

/--
**The line of a function is unambiguous.**  Two functions with the same line, whose names hold no
parenthesis, as no identifier does, have the same name, take the same types, one for one, and resolve to the
same types in the same way, whatever their parameters and outputs are named.
-/
theorem member_unambiguous (f g : Abi.Function) (hf : '(' ∉ f.name.toList) (hg : '(' ∉ g.name.toList)
    (h : member (Signature.ofFunction f) = member (Signature.ofFunction g)) :
    (Signature.ofFunction f).name = (Signature.ofFunction g).name ∧
      (Signature.ofFunction f).parameters.length = (Signature.ofFunction g).parameters.length ∧
      (Signature.ofFunction f).parameters.map Parameter.type =
        (Signature.ofFunction g).parameters.map Parameter.type ∧
      SameReturns (Signature.ofFunction f).returns (Signature.ofFunction g).returns := by
  have hline : Line.ofSignature (Signature.ofFunction f) = Line.ofSignature (Signature.ofFunction g) := by
    refine Line.eq_of_text_eq (Line.isLegible_ofSignature hf) (Line.isLegible_ofSignature hg) ?_
    rw [Line.text_ofSignature, Line.text_ofSignature, h]
  obtain ⟨hname, hparameters, hresult⟩ := Line.mk.inj hline
  have htypes : (Signature.ofFunction f).parameters.map Parameter.type =
      (Signature.ofFunction g).parameters.map Parameter.type := by
    rw [← Line.map_type_parameterSlots, hparameters, Line.map_type_parameterSlots]
  exact ⟨hname, by simpa using congrArg List.length htypes, htypes, sameReturns_of_resultOf hresult⟩

/-- A function whose names have to be rewritten. -/
def rewrittenNames : Abi.Function :=
  ⟨"quote", [.ofType "uint8" "a-b", .ofType "tuple[]" "with"],
    [.ofType "bytes4" "x", .ofType "address[][]" ""], .view⟩

/-- A function whose names are what these are rewritten to. -/
def plainNames : Abi.Function :=
  ⟨"quote", [.ofType "int256" "a_b", .ofType "uint8[3][]" "_with"],
    [.ofType "address" "", .ofType "bytes[][]" "y"], .payable⟩

/-- Different names and ABI types can have one line, but not different host types. -/
theorem member_unambiguous_sample :
    member (Signature.ofFunction rewrittenNames) = member (Signature.ofFunction plainNames) ∧
      (Signature.ofFunction rewrittenNames).parameters.map Parameter.type =
        (Signature.ofFunction plainNames).parameters.map Parameter.type ∧
      SameReturns (Signature.ofFunction rewrittenNames).returns
        (Signature.ofFunction plainNames).returns := by
  have hmember :
      member (Signature.ofFunction rewrittenNames) = member (Signature.ofFunction plainNames) := by
    decide +kernel
  obtain ⟨-, -, htypes, hreturns⟩ :=
    member_unambiguous rewrittenNames plainNames (by decide) (by decide) hmember
  exact ⟨hmember, htypes, hreturns⟩

end Binding

end ContractBindings
