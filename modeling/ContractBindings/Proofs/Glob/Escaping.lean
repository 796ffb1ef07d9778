import ContractBindings.Glob.Search
import ContractBindings.Proofs.Fallible
import ContractBindings.Proofs.Text.Encoding
import ContractBindings.Proofs.Text.Separated

/-!
# Escaped patterns

The pattern of the files below a directory is the escaped directory, `**`, and `*.` with an extension.

* `tokenize_escape`, `matches_quoted`: an escaped text is a pattern, and only that text matches it;
* `matchesName_files`: `*.` with a plain extension matches the names that end with the extension behind a
  dot;
* `ofChars_filesPattern`: so the components of the whole pattern are known, whatever the directory is.
-/

set_option autoImplicit false

namespace ContractBindings.Glob

open Text

/-- Without wildcards and slashes: an extension that stands for itself in a pattern. -/
def IsPlainExtension (extension : String) : Prop :=
  ∀ c ∈ extension.toList, isSpecial c = false ∧ c ≠ '/'

instance (extension : String) : Decidable (IsPlainExtension extension) :=
  decidable_of_iff ((extension.toList.all fun c => !isSpecial c && c != '/') = true)
    (by simp [IsPlainExtension])

/-- The token that an escaped character is read as. -/
def quotedToken (c : Char) : Token := if isSpecial c then .oneOf [.single c] else .char c

/-- The tokens of `*.` with an extension. -/
def extensionTokens (extension : String) : List Token :=
  .anySequence :: ('.' :: extension.toList).map .char

/-! ## Reading -/

theorem tokenizeFrom_nil (budget i : Nat) (previous : Option Char) :
    tokenizeFrom budget i previous [] = .ok [] := by
  cases budget <;> rfl

/-- A character without a meaning in patterns stands for itself. -/
theorem tokenizeFrom_plain {c : Char} (h : isSpecial c = false) (budget i : Nat)
    (previous : Option Char) (rest : List Char) :
    tokenizeFrom (budget + 1) i previous (c :: rest) =
      (tokenizeFrom budget (i + 1) (some c) rest).map (.char c :: ·) := by
  simp only [isSpecial, Bool.or_eq_false_iff, beq_eq_false_iff_ne, ne_eq] at h
  obtain ⟨⟨⟨h₁, h₂⟩, h₃⟩, _⟩ := h
  simp only [tokenizeFrom, h₁, h₂, h₃, if_false]
  rfl

theorem readSet_special {c : Char} (h : isSpecial c = true) (rest : List Char) :
    readSet (c :: ']' :: rest) = some (.oneOf [.single c], rest) := by
  simp only [isSpecial, Bool.or_eq_true, beq_iff_eq] at h
  rcases h with ((rfl | rfl) | rfl) | rfl <;> rfl

theorem tokenizeFrom_bracketed {c : Char} (h : isSpecial c = true) (budget i : Nat)
    (previous : Option Char) (rest : List Char) :
    ∃ j, tokenizeFrom (budget + 1) i previous ('[' :: c :: ']' :: rest) =
      (tokenizeFrom budget j (some ']') rest).map (.oneOf [.single c] :: ·) := by
  refine ⟨i + 1 + ((c :: ']' :: rest).length - rest.length), ?_⟩
  rw [tokenizeFrom.eq_def]
  simp only [Char.reduceEq, if_false, if_true, readSet_special h]
  rfl

/-- One token is read for each escaped character; only the place of a later fault depends on them. -/
theorem tokenizeFrom_escape (cs : List Char) : ∀ (budget i : Nat) (previous : Option Char)
    (rest : List Char), ∃ j q, tokenizeFrom (cs.length + budget) i previous (escape cs ++ rest) =
      (tokenizeFrom budget j q rest).map (cs.map quotedToken ++ ·) := by
  induction cs with
  | nil =>
    intro budget i previous rest
    refine ⟨i, previous, ?_⟩
    simp only [List.length_nil, Nat.zero_add, escape, List.flatMap_nil, List.nil_append, List.map_nil]
    cases tokenizeFrom budget i previous rest <;> rfl
  | cons c cs ih =>
    intro budget i previous rest
    have hlen : (c :: cs).length + budget = cs.length + budget + 1 := by simp; omega
    rw [hlen]
    by_cases hc : isSpecial c = true
    · obtain ⟨j, hj⟩ := tokenizeFrom_bracketed hc (cs.length + budget) i previous (escape cs ++ rest)
      obtain ⟨j', q, hq⟩ := ih budget j (some ']') rest
      refine ⟨j', q, ?_⟩
      have hsplit : escape (c :: cs) ++ rest = '[' :: c :: ']' :: (escape cs ++ rest) := by
        simp [escape, escapeChar, hc]
      rw [hsplit, hj, hq]
      cases tokenizeFrom budget j' q rest <;> simp [Except.map, quotedToken, hc]
    · rw [Bool.not_eq_true] at hc
      obtain ⟨j', q, hq⟩ := ih budget (i + 1) (some c) rest
      refine ⟨j', q, ?_⟩
      have hsplit : escape (c :: cs) ++ rest = c :: (escape cs ++ rest) := by
        simp [escape, escapeChar, hc]
      rw [hsplit, tokenizeFrom_plain hc, hq]
      cases tokenizeFrom budget j' q rest <;> simp [Except.map, quotedToken, hc]

theorem length_le_length_escape (cs : List Char) : cs.length ≤ (escape cs).length := by
  induction cs with
  | nil => simp
  | cons c cs ih =>
    have : escape (c :: cs) = escapeChar c ++ escape cs := rfl
    rw [this, List.length_append, List.length_cons]
    have : 1 ≤ (escapeChar c).length := by unfold escapeChar; split <;> simp
    omega

theorem tokenize_escape_append (cs rest : List Char) :
    ∃ budget j q, rest.length < budget ∧
      tokenize (escape cs ++ rest) = (tokenizeFrom budget j q rest).map (cs.map quotedToken ++ ·) := by
  have hl := length_le_length_escape cs
  obtain ⟨j, q, h⟩ :=
    tokenizeFrom_escape cs ((escape cs).length - cs.length + rest.length + 1) 0 none rest
  refine ⟨(escape cs).length - cs.length + rest.length + 1, j, q, by omega, ?_⟩
  rw [← h]
  unfold tokenize
  congr 1
  rw [List.length_append]
  omega

/-- **An escaped text is read as its characters.** -/
theorem tokenize_escape (cs : List Char) : tokenize (escape cs) = .ok (cs.map quotedToken) := by
  obtain ⟨budget, j, q, _, h⟩ := tokenize_escape_append cs []
  rw [List.append_nil, tokenizeFrom_nil] at h
  rw [h]
  simp [Except.map]

theorem escape_of_plain {cs : List Char} (h : ∀ c ∈ cs, isSpecial c = false) : escape cs = cs := by
  induction cs with
  | nil => rfl
  | cons c cs ih =>
    have : escape (c :: cs) = escapeChar c ++ escape cs := rfl
    rw [this, ih fun d hd => h d (List.mem_cons_of_mem _ hd)]
    simp [escapeChar, h c (by simp)]

theorem map_quotedToken_of_plain {cs : List Char} (h : ∀ c ∈ cs, isSpecial c = false) :
    cs.map quotedToken = cs.map .char := by
  refine List.map_congr_left fun c hc => ?_
  simp [quotedToken, h c hc]

theorem plain_dot_extension {extension : String} (h : IsPlainExtension extension) :
    ∀ c ∈ '.' :: extension.toList, isSpecial c = false := by
  intro c hc
  rcases List.mem_cons.mp hc with rfl | hc
  · rfl
  · exact (h c hc).1

/-- The star of `*.` is read as a sequence. -/
theorem tokenizeFrom_star (budget i : Nat) (previous : Option Char) (cs : List Char) :
    tokenizeFrom (budget + 1) i previous ('*' :: '.' :: cs) =
      (tokenizeFrom budget (i + 1) (some '*') ('.' :: cs)).map (.anySequence :: ·) := by
  rw [tokenizeFrom.eq_def]
  simp only [Char.reduceEq, if_false, if_true]
  rfl

/-- What follows the star stands for itself. -/
theorem tokenizeFrom_extension {extension : String} (h : IsPlainExtension extension) {budget : Nat}
    (hb : ('.' :: extension.toList).length < budget) (i : Nat) (previous : Option Char) :
    tokenizeFrom (budget + 1) i previous ('*' :: '.' :: extension.toList) =
      .ok (extensionTokens extension) := by
  have hplain := plain_dot_extension h
  obtain ⟨k, rfl⟩ : ∃ k, budget = ('.' :: extension.toList).length + k :=
    ⟨budget - ('.' :: extension.toList).length, by omega⟩
  obtain ⟨j, q, he⟩ := tokenizeFrom_escape ('.' :: extension.toList) k (i + 1) (some '*') []
  rw [List.append_nil, tokenizeFrom_nil, escape_of_plain hplain, map_quotedToken_of_plain hplain] at he
  rw [tokenizeFrom_star, he]
  simp [Except.map, extensionTokens]

theorem tokenize_extension {extension : String} (h : IsPlainExtension extension) :
    tokenize ('*' :: '.' :: extension.toList) = .ok (extensionTokens extension) :=
  tokenizeFrom_extension h (by simp) 0 none

/-! ## Parts of a name -/

theorem splitAtBracket_suffix {cs inner after : List Char} (h : splitAtBracket cs = some (inner, after)) :
    after <:+ cs := by
  unfold splitAtBracket at h
  split at h
  · cases h
  · rename_i bracket rest hdrop
    cases h
    have hsuffix := List.dropWhile_suffix (l := cs) (· != ']')
    rw [hdrop] at hsuffix
    exact (List.suffix_cons bracket after).trans hsuffix

/-- A set stands for one character. -/
theorem readSet_spec {cs after : List Char} {token : Token} (h : readSet cs = some (token, after)) :
    after <:+ cs ∧ token ≠ .anyDirectories := by
  unfold readSet at h
  split at h
  · rename_i c rest
    obtain ⟨⟨inner, after'⟩, hsplit, he⟩ := Option.map_eq_some_iff.mp h
    cases he
    have hsuffix := splitAtBracket_suffix hsplit
    exact ⟨(hsuffix.trans (List.suffix_cons c rest)).trans (List.suffix_cons '!' _), by simp⟩
  · cases h
  · rename_i c rest _ _
    obtain ⟨⟨inner, after'⟩, hsplit, he⟩ := Option.map_eq_some_iff.mp h
    cases he
    exact ⟨(splitAtBracket_suffix hsplit).trans (List.suffix_cons c rest), by simp⟩
  · cases h

/-- Inside of a name there is no `**`: it is refused there. -/
theorem anyDirectories_not_mem {budget i : Nat} {p : Char} {cs : List Char} {tokens : List Token}
    (hp : p ≠ '/') (hcs : '/' ∉ cs) (h : tokenizeFrom budget i (some p) cs = .ok tokens) :
    .anyDirectories ∉ tokens := by
  induction budget generalizing i p cs tokens with
  | zero => cases h; simp
  | succ budget ih =>
    cases cs with
    | nil => rw [tokenizeFrom_nil] at h; cases h; simp
    | cons c rest =>
      have hc : c ≠ '/' := fun e => hcs (by simp [e])
      have hrest : '/' ∉ rest := fun hm => hcs (List.mem_cons_of_mem _ hm)
      have more : ∀ {token : Token} {j : Nat} {q : Char} {after : List Char}, token ≠ .anyDirectories →
          q ≠ '/' → '/' ∉ after →
          (tokenizeFrom budget j (some q) after).map (token :: ·) = .ok tokens →
          .anyDirectories ∉ tokens := by
        intro token j q after htoken hq hafter hok
        obtain ⟨found, hread, rfl⟩ := map_eq_ok_iff.mp hok
        rw [List.mem_cons, not_or]
        exact ⟨htoken.symm, ih hq hafter hread⟩
      rw [tokenizeFrom.eq_def] at h
      simp only at h
      split at h
      · exact more (by simp) hc hrest h
      · split at h
        · split at h
          · cases h
          · rename_i hstars
            simp only [reduceCtorEq, Option.some.injEq, hp, or_self, if_false] at h
          · exact more (by simp) hc hrest h
        · split at h
          · split at h
            · cases h
            · rename_i token after hset
              obtain ⟨hsuffix, htoken⟩ := readSet_spec hset
              exact more htoken (by decide) (fun hm => hrest (hsuffix.subset hm)) h
          · exact more (by simp) hc hrest h

/-- **What `*.` and an extension are read as is the name of a file**, if the extension is part of a name. -/
theorem isAnyDirectories_of_tokenize {extension : String} (h : '/' ∉ extension.toList) {files : Component}
    (hfiles : tokenize ('*' :: '.' :: extension.toList) = .ok files) : isAnyDirectories files = false := by
  have hrest : '/' ∉ '.' :: extension.toList := by
    rw [List.mem_cons, not_or]
    exact ⟨by decide, h⟩
  rw [tokenize, tokenizeFrom_star] at hfiles
  obtain ⟨tokens, hread, rfl⟩ := map_eq_ok_iff.mp hfiles
  have hnot := anyDirectories_not_mem (by decide) hrest hread
  simpa [isAnyDirectories] using hnot

/-- The whole pattern can be read, so it has no fault. -/
theorem tokenize_filesPattern {extension : String} (h : IsPlainExtension extension) (cs : List Char) :
    ∃ tokens, tokenize (escape cs ++ "/**/*.".toList ++ extension.toList) = .ok tokens := by
  have hsplit : escape cs ++ "/**/*.".toList ++ extension.toList =
      escape cs ++ ('/' :: '*' :: '*' :: '/' :: '*' :: '.' :: extension.toList) := by
    rw [List.append_assoc]; rfl
  obtain ⟨budget, j, q, hb, ht⟩ :=
    tokenize_escape_append cs ('/' :: '*' :: '*' :: '/' :: '*' :: '.' :: extension.toList)
  simp only [List.length_cons] at hb
  obtain ⟨k, rfl⟩ : ∃ k, budget = k + 1 + 1 + 1 := ⟨budget - 3, by omega⟩
  rw [hsplit, ht, tokenizeFrom_plain rfl, tokenizeFrom]
  simp only [Char.reduceEq, if_false, if_true, or_true]
  rw [tokenizeFrom_extension h (by simp only [List.length_cons]; omega)]
  exact ⟨_, rfl⟩

/-! ## Matching -/

theorem mem_suffixes_iff {xs ys : List Char} : ys ∈ suffixes xs ↔ ys <:+ xs := by
  induction xs with
  | nil => simp [suffixes]
  | cons c xs ih => rw [suffixes, List.mem_cons, ih, List.suffix_cons_iff]

theorem matches_quoted {cs name : List Char} :
    Token.matches (cs.map quotedToken) name = true ↔ name = cs := by
  induction cs generalizing name with
  | nil => simp [Token.matches]
  | cons c cs ih =>
    have haccepts : ∀ d, (quotedToken c).accepts d = true ↔ d = c := by
      intro d
      unfold quotedToken
      split <;> simp [Token.accepts, Specifier.contains]
    have hne : quotedToken c ≠ .anySequence ∧ quotedToken c ≠ .anyDirectories := by
      unfold quotedToken
      split <;> simp
    cases name with
    | nil =>
      rw [List.map_cons]
      cases hq : quotedToken c <;> simp_all [Token.matches]
    | cons d name =>
      rw [List.map_cons]
      have : Token.matches (quotedToken c :: cs.map quotedToken) (d :: name) =
          ((quotedToken c).accepts d && Token.matches (cs.map quotedToken) name) := by
        cases hq : quotedToken c <;> simp_all [Token.matches]
      rw [this, Bool.and_eq_true, haccepts, ih]
      simp

theorem matches_extensionTokens {extension : String} (h : IsPlainExtension extension)
    {name : List Char} :
    Token.matches (extensionTokens extension) name = true ↔ '.' :: extension.toList <:+ name := by
  rw [extensionTokens, Token.matches, List.any_eq_true,
    ← map_quotedToken_of_plain (plain_dot_extension h)]
  constructor
  · rintro ⟨ys, hys, hm⟩
    rw [← matches_quoted.mp hm]
    exact mem_suffixes_iff.mp hys
  · intro hs
    exact ⟨_, mem_suffixes_iff.mpr hs, matches_quoted.mpr rfl⟩

/-- A name that is text and ends with an extension behind a dot. -/
def HasExtension (extension : String) (n : Name) : Prop :=
  ∃ before : String, n = encode (before ++ "." ++ extension)

theorem matchesName_iff {c : Component} {n : Name} :
    matchesName c n = true ↔ ∃ text, n = encode text ∧ Token.matches c text.toList = true := by
  unfold matchesName
  constructor
  · intro h
    cases hd : decode? n with
    | none => rw [hd] at h; cases h
    | some text => rw [hd] at h; exact ⟨text, decode?_eq_some hd, h⟩
  · rintro ⟨text, rfl, h⟩
    rw [decode?_encode]
    exact h

/-- **`*.` with an extension matches the names with that extension.** -/
theorem matchesName_files {extension : String} (h : IsPlainExtension extension) {n : Name} :
    matchesName (extensionTokens extension) n = true ↔ HasExtension extension n := by
  rw [matchesName_iff]
  constructor
  · rintro ⟨text, rfl, hm⟩
    obtain ⟨before, hb⟩ := (matches_extensionTokens h).mp hm
    refine ⟨String.ofList before, congrArg encode ?_⟩
    apply String.toList_injective
    rw [← hb]
    simp
  · rintro ⟨before, rfl⟩
    exact ⟨_, rfl, (matches_extensionTokens h).mpr ⟨before.toList, by simp⟩⟩

theorem matchesName_quoted {cs : List Char} {n : Name} :
    matchesName (cs.map quotedToken) n = true ↔ n = encode (String.ofList cs) := by
  rw [matchesName_iff]
  constructor
  · rintro ⟨text, rfl, hm⟩
    rw [← matches_quoted.mp hm, String.ofList_toList]
  · rintro rfl
    exact ⟨_, rfl, matches_quoted.mpr String.toList_ofList⟩

theorem literal?_quoted (cs : List Char) :
    Token.literal? (cs.map quotedToken) = if cs.any isSpecial then none else some cs := by
  induction cs with
  | nil => rfl
  | cons c cs ih =>
    rw [List.map_cons]
    cases hc : isSpecial c with
    | true => simp [quotedToken, hc, Token.literal?]
    | false =>
      have hq : quotedToken c = .char c := by simp [quotedToken, hc]
      rw [hq, Token.literal?, ih, List.any_cons, hc, Bool.false_or]
      split <;> rfl

theorem isAnyDirectories_quoted (cs : List Char) : isAnyDirectories (cs.map quotedToken) = false := by
  rw [Bool.eq_false_iff]
  simp only [isAnyDirectories, Ne, List.contains_iff_mem, List.mem_map, not_exists, not_and]
  intro c _
  unfold quotedToken
  split <;> simp

/-! ## The whole pattern -/

theorem splitSlashes_eq (cs : List Char) : splitSlashes cs = between '/' cs := by
  induction cs with
  | nil => rfl
  | cons c cs ih =>
    by_cases h : c = '/'
    · simp [splitSlashes, between, h, ih]
    · obtain ⟨piece, pieces, hx⟩ := List.exists_cons_of_ne_nil (between_ne_nil '/' cs)
      rw [between_cons_of_ne h hx]
      simp [splitSlashes, h, ih, hx]

theorem between_escape (cs : List Char) : between '/' (escape cs) = (between '/' cs).map escape := by
  refine between_flatMap (by decide) ?_ cs
  intro c hc hm
  unfold escapeChar at hm
  split at hm
  · simp only [List.mem_cons, List.not_mem_nil, or_false] at hm
    rcases hm with h | h | h
    · cases h
    · exact hc h.symm
    · cases h
  · exact hc (List.mem_singleton.mp hm).symm

/-- The pieces of a directory behind the slash that it may begin with. -/
def directoryPieces : List Char → List (List Char)
  | [] => []
  | c :: cs => if c = '/' then between '/' cs else between '/' (c :: cs)

/-- The components of the pattern of the files below a directory, for the component of their names. -/
def filesComponents (directory : List Char) (files : Component) : List Component :=
  (directoryPieces directory).map (·.map quotedToken) ++ [[.anyDirectories], files]

/-- Whether the pattern of the files below a directory starts at the top: also if there is no
directory. -/
def startsAtTop (directory : List Char) : Bool := directory.isEmpty || directory.head? == some '/'

theorem mapM_tokenize_pieces (pieces : List (List Char)) (last : List Char) :
    (pieces.map escape ++ [['*', '*'], last]).mapM tokenize =
      (tokenize last).map fun files => pieces.map (·.map quotedToken) ++ [[.anyDirectories], files] := by
  have hstars : tokenize ['*', '*'] = .ok [.anyDirectories] := by rfl
  induction pieces with
  | nil =>
    simp only [List.map_nil, List.nil_append, List.mapM_cons, List.mapM_nil, hstars]
    cases tokenize last <;> rfl
  | cons piece pieces ih =>
    simp only [List.map_cons, List.cons_append, List.mapM_cons, tokenize_escape, ih]
    cases tokenize last <;> rfl

theorem IsPlainExtension.no_slash {extension : String} (h : IsPlainExtension extension) :
    '/' ∉ extension.toList := fun hm => (h '/' hm).2 rfl

theorem between_behind_directory (directory : List Char) {extension : String}
    (h : '/' ∉ extension.toList) :
    between '/' (escape directory ++ "/**/*.".toList ++ extension.toList) =
      (between '/' directory).map escape ++ [['*', '*'], '*' :: '.' :: extension.toList] := by
  have hsplit : escape directory ++ "/**/*.".toList ++ extension.toList =
      escape directory ++ '/' :: (['*', '*'] ++ '/' :: ('*' :: '.' :: extension.toList)) := by
    rw [List.append_assoc]; rfl
  have hext : '/' ∉ '*' :: '.' :: extension.toList := by
    simp only [List.mem_cons, Char.reduceEq, false_or]
    exact h
  have hstars : '/' ∉ ['*', '*'] := by decide
  rw [hsplit, between_append, between_append, between_escape, between_of_not_mem hext,
    between_of_not_mem hstars]
  rfl

theorem escape_cons (c : Char) (cs : List Char) : escape (c :: cs) = escapeChar c ++ escape cs := rfl

/-- An escaped text begins with a slash only if the text does. -/
theorem head?_filesPattern (directory : List Char) (extension : String) :
    ((escape directory ++ "/**/*.".toList ++ extension.toList).head? == some '/') =
      startsAtTop directory := by
  cases directory with
  | nil => rfl
  | cons c cs =>
    rw [escape_cons]
    unfold escapeChar startsAtTop
    split
    · rename_i hc
      have hne : c ≠ '/' := by
        rintro rfl
        exact absurd hc (by decide)
      simp [hne]
    · rfl

/-- The pattern of files ends with a file name. -/
theorem getLast?_filesPattern {extension : String} (h : '/' ∉ extension.toList)
    (directory : List Char) :
    ((escape directory ++ "/**/*.".toList ++ extension.toList).getLast? == some '/') = false := by
  rw [List.getLast?_append]
  cases hl : extension.toList.getLast? with
  | none => simp
  | some c =>
    have hne : c ≠ '/' := by
      rintro rfl
      exact h (List.mem_of_getLast? hl)
    simpa using hne

theorem dropTerminator_files (pieces : List (List Char)) (extension : String) :
    Pattern.dropTerminator (pieces ++ [['*', '*'], '*' :: '.' :: extension.toList]) =
      pieces ++ [['*', '*'], '*' :: '.' :: extension.toList] := by
  simp [Pattern.dropTerminator]

/-- The pieces of the pattern of files, behind the slash that it may begin with. -/
theorem splitSlashes_filesPattern {extension : String} (h : '/' ∉ extension.toList)
    (directory : List Char) :
    splitSlashes (if startsAtTop directory = true then
        (escape directory ++ "/**/*.".toList ++ extension.toList).drop 1
      else escape directory ++ "/**/*.".toList ++ extension.toList) =
      (directoryPieces directory).map escape ++ [['*', '*'], '*' :: '.' :: extension.toList] := by
  rw [splitSlashes_eq]
  cases directory with
  | nil =>
    have := between_behind_directory [] h
    simpa [startsAtTop, escape, between_cons_self, between, directoryPieces] using this
  | cons c cs =>
    by_cases hc : c = '/'
    · subst hc
      have := between_behind_directory cs h
      simpa [startsAtTop, escape, escapeChar, isSpecial, directoryPieces] using this
    · have htop : startsAtTop (c :: cs) = false := by simp [startsAtTop, hc]
      rw [htop, if_neg Bool.false_ne_true, between_behind_directory (c :: cs) h]
      simp [directoryPieces, hc]

/-- **The pattern of the files below a directory** is read component by component, if the extension is part
of a name. -/
theorem ofChars_filesPattern {extension : String} (h : '/' ∉ extension.toList)
    (directory : List Char) :
    Pattern.ofChars (escape directory ++ "/**/*.".toList ++ extension.toList) =
      (tokenize (escape directory ++ "/**/*.".toList ++ extension.toList)).bind fun _ =>
        (tokenize ('*' :: '.' :: extension.toList)).map fun files =>
          ⟨startsAtTop directory, filesComponents directory files, false⟩ := by
  unfold Pattern.ofChars
  cases tokenize (escape directory ++ "/**/*.".toList ++ extension.toList) with
  | error e => rfl
  | ok tokens =>
    simp only [bind, Except.bind]
    rw [head?_filesPattern, splitSlashes_filesPattern h, dropTerminator_files, mapM_tokenize_pieces,
      getLast?_filesPattern h]
    cases tokenize ('*' :: '.' :: extension.toList) <;> rfl

end ContractBindings.Glob
