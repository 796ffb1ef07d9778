import ContractBindings.Proofs.Binding.Imports
import ContractBindings.Proofs.HostType.Grammar
import ContractBindings.Proofs.Text.Identifier

/-!
# The names of a module

A module makes its names out of the contract's: it rewrites that to an identifier and puts something before
or behind it.  The names of parameters are rewritten too, and kept away from reserved words.

* `isName_iff`: an identifier is a word of the grammar of names (`nameGrammar`);
* `rewriting_settles`: both rewritings make words of the grammar, leave such words alone and have nothing to
  do a second time;
* `declared_nodup`: what is put around the identifier keeps the three names apart from each other and from
  all that can be imported;
* `render_names`: so the names of a module never clash.
-/

set_option autoImplicit false

namespace ContractBindings.Binding

open Text

/-! ## The grammar of names -/

/-- The characters that a name may begin with. -/
def firstChars : String := "ABCDEFGHIJKLMNOPQRSTUVWXYZabcdefghijklmnopqrstuvwxyz_$"

/-- The characters that a name may go on with. -/
def otherChars : String := "ABCDEFGHIJKLMNOPQRSTUVWXYZabcdefghijklmnopqrstuvwxyz0123456789_$"

/-- The expression for names. -/
def nameGrammar : RegularExpression Char :=
  HostType.oneOf firstChars * (HostType.oneOf otherChars).star

/-- A text is a word of the grammar. -/
def IsName (s : String) : Prop := s.toList ∈ nameGrammar.matches'

variable {s : String} {c : Char}

theorem toNat_lt_of_isIdentifierPart (h : isIdentifierPart c = true) : c.toNat < 128 := by
  have htoNat : c.toNat = c.val.toNat := rfl
  have hbounds : 'Z'.val.toNat = 90 ∧ 'z'.val.toNat = 122 ∧ '9'.val.toNat = 57 := ⟨rfl, rfl, rfl⟩
  simp only [isIdentifierPart, Char.isAlphanum, Char.isAlpha, Char.isUpper, Char.isLower, Char.isDigit,
    Bool.or_eq_true, Bool.and_eq_true, decide_eq_true_eq, beq_iff_eq, ge_iff_le,
    UInt32.le_iff_toNat_le] at h
  rcases h with (((hupper | hlower) | hdigit) | rfl) | rfl
  · omega
  · omega
  · omega
  · decide
  · decide

/-- A list holds the characters of a test that only ASCII characters pass, if it does so for those. -/
theorem mem_iff_of_ascii {chars : List Char} {test : Char → Bool}
    (htest : ∀ c, test c = true → c.toNat < 128) (hall : chars.all test = true)
    (hascii : ∀ n < 128, test (Char.ofNat n) = true → Char.ofNat n ∈ chars) (c : Char) :
    c ∈ chars ↔ test c = true := by
  refine ⟨List.all_eq_true.mp hall c, fun h => ?_⟩
  have hc := hascii c.toNat (htest c h)
  rw [Char.ofNat_toNat] at hc
  exact hc h

theorem mem_firstChars_iff (c : Char) : c ∈ firstChars.toList ↔ isIdentifierStart c = true :=
  mem_iff_of_ascii (fun _ h => toNat_lt_of_isIdentifierPart (isIdentifierPart_of_start h))
    (by decide +kernel) (by decide +kernel) c

theorem mem_otherChars_iff (c : Char) : c ∈ otherChars.toList ↔ isIdentifierPart c = true :=
  mem_iff_of_ascii (fun _ => toNat_lt_of_isIdentifierPart) (by decide +kernel) (by decide +kernel) c

/-- **The identifiers are the words of the grammar.** -/
theorem isName_iff : IsName s ↔ isIdentifier s = true := by
  rw [IsName, nameGrammar, RegularExpression.matches'_mul, Language.mem_mul, isIdentifier_iff]
  constructor
  · rintro ⟨first, hfirst, rest, hrest, hs⟩
    obtain ⟨c, hc, rfl⟩ := HostType.mem_foldr_add.mp hfirst
    refine ⟨c, rest, hs.symm, (mem_firstChars_iff c).mp hc, fun d hd => ?_⟩
    exact (mem_otherChars_iff d).mp (HostType.mem_star_oneOf_iff.mp hrest d hd)
  · rintro ⟨c, rest, hs, hc, hrest⟩
    refine ⟨[c], HostType.mem_foldr_add.mpr ⟨c, (mem_firstChars_iff c).mpr hc, rfl⟩, rest, ?_, hs.symm⟩
    exact HostType.mem_star_oneOf_iff.mpr fun d hd => (mem_otherChars_iff d).mpr (hrest d hd)

theorem isUsable_iff : IsUsable s ↔ IsName s ∧ s ∉ reservedWords := by
  rw [isName_iff]
  exact ⟨fun h => ⟨h.identifier, h.not_reserved⟩, fun h => ⟨h.1, h.2⟩⟩

/-! ## Rewritten names -/

/-- A rewriting makes every text good, leaves just the good texts as they are, and has nothing to do a second
time. -/
structure Settles (rewrite : String → String) (IsGood : String → Prop) : Prop where
  good : ∀ s, IsGood (rewrite s)
  eq_iff : ∀ s, rewrite s = s ↔ IsGood s
  twice : ∀ s, rewrite (rewrite s) = rewrite s

theorem settles_of_kept {rewrite : String → String} {IsGood : String → Prop}
    (hgood : ∀ s, IsGood (rewrite s)) (hkept : ∀ s, IsGood s → rewrite s = s) :
    Settles rewrite IsGood where
  good := hgood
  eq_iff s := ⟨fun h => h ▸ hgood s, hkept s⟩
  twice s := hkept (rewrite s) (hgood s)

theorem settles_sanitize : Settles sanitize IsName :=
  settles_of_kept (fun s => isName_iff.mpr (isIdentifier_sanitize s))
    fun _ h => sanitize_of_isIdentifier (isName_iff.mp h)

theorem settles_parameterName (index : Nat) :
    Settles (parameterName · index) fun s => IsName s ∧ s ∉ reservedWords :=
  settles_of_kept (fun s => isUsable_iff.mp (isUsable_parameterName s index))
    fun _ h => parameterName_of_isUsable (isUsable_iff.mpr h) index

/--
**The rewritings settle.**  The names of contracts become words of the grammar, and the names of parameters
become words of the grammar that are not reserved.  Such names are left alone and all others are changed, the
empty one among them.  What is rewritten as the name of one parameter stays as it is at any other position.
-/
theorem rewriting_settles :
    Settles sanitize IsName ∧
      (∀ index, Settles (parameterName · index) fun s => IsName s ∧ s ∉ reservedWords) ∧
      ∀ s index index', parameterName (parameterName s index) index' = parameterName s index := by
  refine ⟨settles_sanitize, settles_parameterName, fun s index index' => ?_⟩
  exact ((settles_parameterName index').eq_iff _).mpr ((settles_parameterName index).good s)

/-! ## Declared names -/

/-- The names that a module declares. -/
structure Declared where
  constant : String
  type : String
  factory : String
  deriving DecidableEq, Repr

def Declared.toList (names : Declared) : List String := [names.constant, names.type, names.factory]

/-- The names that the module of a contract declares. -/
def declared (contract : String) : Declared where
  constant := sanitize contract ++ "_abi"
  type := sanitize contract ++ "_Contract"
  factory := "connect_" ++ sanitize contract

/-- The names that a module may import. -/
def importableNames : List String :=
  ["Contract", "AddressLike", "Addressable", "BytesLike", "ContractRunner", "ContractTransaction"]

variable {contract name : String}

theorem mem_declared_iff : name ∈ (declared contract).toList ↔
    name = sanitize contract ++ "_abi" ∨ name = sanitize contract ++ "_Contract" ∨
      name = "connect_" ++ sanitize contract := by
  simp only [Declared.toList, declared, List.mem_cons, List.not_mem_nil, or_false]

theorem underscore_mem_declared (h : name ∈ (declared contract).toList) : '_' ∈ name.toList := by
  rcases mem_declared_iff.mp h with rfl | rfl | rfl <;> simp

theorem isName_of_mem_declared (h : name ∈ (declared contract).toList) : IsName name := by
  have hidentifier := isIdentifier_sanitize contract
  rw [isName_iff]
  rcases mem_declared_iff.mp h with rfl | rfl | rfl
  · exact isIdentifier_append hidentifier (by simp [isIdentifierPart])
  · exact isIdentifier_append hidentifier (by simp [isIdentifierPart])
  · exact isIdentifier_append (by decide) fun d => isIdentifierPart_of_mem hidentifier

/-- **The three names are different from each other**, because of their lengths, **and from all that can be
imported**, because of their underscores. -/
theorem declared_nodup (contract : String) : ((declared contract).toList ++ importableNames).Nodup := by
  refine List.nodup_append.mpr ⟨?_, by decide, ?_⟩
  · have hne : ∀ {s t : String}, s.length ≠ t.length → s ≠ t := fun h hst => h (congrArg _ hst)
    have habi : "_abi".length = 4 := rfl
    have htype : "_Contract".length = 9 := rfl
    have hconnect : "connect_".length = 8 := rfl
    simp only [Declared.toList, declared, List.nodup_cons, List.mem_cons, List.not_mem_nil, or_false,
      not_or, not_false_eq_true, List.nodup_nil, and_true]
    refine ⟨⟨hne ?_, hne ?_⟩, hne ?_⟩
    · rw [String.length_append, String.length_append]
      omega
    · rw [String.length_append, String.length_append]
      omega
    · rw [String.length_append, String.length_append]
      omega
  · intro name hname other hother
    have hplain : ∀ s ∈ importableNames, '_' ∉ s.toList := by decide
    rintro rfl
    exact hplain name hother (underscore_mem_declared hname)

/-- **Contracts share their names exactly if they share the identifier.** -/
theorem declared_eq_iff {other : String} :
    declared other = declared contract ↔ sanitize other = sanitize contract := by
  constructor
  · intro h
    exact (String.append_left_inj _).mp (congrArg Declared.constant h)
  · intro h
    rw [declared, declared, h]

/-! ## Modules -/

/-- A module imports a class and types, and then declares a constant, a type and a factory by their names. -/
structure IsNamed (m : BindingModule) (imported : List String) (names : Declared) : Prop where
  source : ∃ specifier members signature : String,
    m.source =
      banner m.contractName ++ "\n"
        ++ ("import \x7b " ++ joined ", " ("Contract" :: imported.map fun type => "type " ++ type)
          ++ " \x7d from " ++ specifier ++ "\n")
        ++ "\n" ++ ("export const " ++ names.constant ++ " = " ++ m.abiLiteral ++ " as const\n")
        ++ "\n" ++ ("export type " ++ names.type ++ " = Contract & \x7b" ++ members)
        ++ "\n" ++ ("export const " ++ names.factory ++ " = (address: string | Addressable, " ++ signature)
  type : m.typeName = names.type
  factory : m.factoryName = names.factory

theorem exists_contractType_eq (identifier : String) (bound : List Signature) :
    ∃ members, contractType identifier bound =
      "export type " ++ (identifier ++ "_Contract") ++ " = Contract & \x7b" ++ members := by
  unfold contractType
  dsimp only
  split
  · exact ⟨_, rfl⟩
  · exact ⟨"\n" ++ allMemberLines bound ++ "\x7d\n", by simp only [typeName, String.append_assoc]⟩

theorem exists_factory_eq (identifier runner : String) :
    ∃ signature, factory identifier runner =
      "export const " ++ ("connect_" ++ identifier) ++ " = (address: string | Addressable, " ++ signature := by
  unfold factory
  simp only [factoryName, String.append_assoc]
  exact ⟨_, rfl⟩

theorem isNamed_render (dialect : Dialect) (contract : String) (d : Abi.Document)
    (signatures : List Signature) :
    IsNamed (BindingModule.render dialect contract d signatures) (importedTypes (members signatures))
      (declared contract) := by
  obtain ⟨lines, hlines⟩ := exists_contractType_eq (sanitize contract) (members signatures)
  obtain ⟨signature, hfactory⟩ :=
    exists_factory_eq (sanitize contract) (parameterName dialect.runnerParameter 0)
  refine ⟨⟨quoted dialect.runtimeModule, lines, signature, ?_⟩, rfl, rfl⟩
  show _ ++ contractType (sanitize contract) (members signatures) ++ _
    ++ factory (sanitize contract) (parameterName dialect.runnerParameter 0) = _
  rw [hlines, hfactory]
  rfl

/--
**The names of a module never clash.**  A module imports `Contract` and types, and declares three names,
which are put together from the identifier of the contract.  Whatever the contract is called, these three and
all that can be imported are different names, and the three are words of the grammar and not reserved.  Two
contracts have the same three names exactly if their names become the same identifier.
-/
theorem render_names (dialect : Dialect) (contract : String) (d : Abi.Document)
    (signatures : List Signature) :
    ∃ imported : List String,
      IsNamed (BindingModule.render dialect contract d signatures) imported (declared contract) ∧
      ("Contract" :: imported).Sublist importableNames ∧
      ((declared contract).toList ++ importableNames).Nodup ∧
      (∀ name ∈ (declared contract).toList, IsName name ∧ name ∉ reservedWords) ∧
      ∀ other, declared other = declared contract ↔ sanitize other = sanitize contract := by
  refine ⟨_, isNamed_render dialect contract d signatures, ?_, declared_nodup contract, ?_,
    fun other => declared_eq_iff⟩
  · exact List.filter_sublist.cons_cons "Contract"
  · intro name hname
    refine ⟨isName_of_mem_declared hname, ?_⟩
    exact not_reserved_of_mem (underscore_mem_declared hname) (by decide)

end ContractBindings.Binding
