import ContractBindings.Binding.Module
import ContractBindings.Proofs.Json.Readers

/-!
# The embedded ABI

A module holds the ABI that it was made from as JSON text.  The text is indented with tabs and the text
that was read need not be, so it is not the same text; but it reads as the same document.

* `value_wrapped`: a value that stands alone in an object is read back from there, whatever blanks it is
  written with;
* `isExact_of_ofText`: what an artifact holds is fit to be written and read again, even one level up;
* `render_readsBack`: so the text that a module embeds is an ABI again, and rendering it gives the same
  module.
-/

set_option autoImplicit false

namespace ContractBindings

namespace Json

open Reader

/-- What fits may stand deeper. -/
theorem Fits.succ {depth : Nat} {v : Json} (h : Fits depth v) : Fits (depth + 1) v := by
  induction depth generalizing v with
  | zero =>
    cases v with
    | array xs => exact absurd h id
    | object ms => exact absurd h id
    | _ => trivial
  | succ depth ih =>
    cases v with
    | array xs => exact fun x hx => ih (h x hx)
    | object ms => exact fun m hm => ih (h m hm)
    | _ => trivial

theorem IsExact.succ {depth : Nat} {v : Json} (h : IsExact depth v) : IsExact (depth + 1) v :=
  ⟨h.fits.succ, h.regular, h.notReal⟩

/-- An object with one member, written without blanks around the text of a value. -/
def wrapped (key : String) (value : List Char) : List Char :=
  '\x7b' :: (stringText key ++ ':' :: (value ++ ['\x7d']))

/-- **A value is read back from an object that is wrapped around it.** -/
theorem value_wrapped {sp : Spacing} (hsp : sp.IsBlank) {depth budget : Nat} {key : String} {v : Json}
    (h : IsExact depth v) (hkey : (stringText key).length < budget)
    (hvalue : (chars sp v).length < budget) :
    value budget (depth + 1) (wrapped key (chars sp v)) = .ok (.object [(key, v)], []) := by
  obtain ⟨more, rfl⟩ : ∃ more, budget = more + 1 := ⟨budget - 1, by omega⟩
  have hread := value_chars hsp h hvalue (endsNumber_cons (c := '\x7d') (by decide) [])
  have hquote : skipBlanks (stringText key ++ ':' :: (chars sp v ++ ['\x7d'])) =
      '"' :: (key.toList.flatMap escapeChar ++ '"' :: ':' :: (chars sp v ++ ['\x7d'])) := by
    rw [stringText, List.cons_append, List.cons_append, List.append_assoc]
    exact skipBlanks_of_not_blank rfl _
  have hclose : moreMembers (value (more + 1) depth) (more + 1) ['\x7d'] = .ok ([], []) :=
    moreMembers_close rfl
  exact valueWith_object (members_cons hquote (member_stringText hkey hread) hclose) (by simp)

end Json

namespace Abi.Document

open Json

/-- The artifact that holds nothing but an ABI, which may be indented. -/
def artifactText (literal : String) : String := "\x7b\"abi\":" ++ literal ++ "\x7d"

theorem ofJson?_eq_some {v : Json} {d : Document} (h : ofJson? v = some d) :
    ∃ fields, v = .object fields ∧ fields.lookup abiField = some (.array d.raw) := by
  unfold ofJson? at h
  split at h
  · rename_i fields
    split at h
    · rename_i items hitems
      cases h
      exact ⟨fields, rfl, hitems⟩
    · cases h
  · cases h

/-- A text is an artifact if it is read as an object with an array under the key of the ABI. -/
theorem ofText_eq_ok_iff {text : String} {d : Document} :
    ofText text = .ok d ↔
      ∃ fields, parse text = .ok (.object fields) ∧ fields.lookup abiField = some (.array d.raw) := by
  constructor
  · intro h
    unfold ofText at h
    cases hparse : parse text with
    | error e => rw [hparse] at h; cases h
    | ok v =>
      cases hread : ofJson? v with
      | none => simp only [hparse, hread] at h; cases h
      | some found =>
        simp only [hparse, hread] at h
        cases h
        obtain ⟨fields, rfl, hlookup⟩ := ofJson?_eq_some hread
        exact ⟨fields, rfl, hlookup⟩
  · rintro ⟨fields, hparse, hlookup⟩
    simp only [ofText, hparse, ofJson?, Fields.get?, hlookup]

/-- **What an artifact holds may be embedded**: the object around it leaves a level for another one. -/
theorem isExact_of_ofText {text : String} {d : Document} (h : ofText text = .ok d)
    (hreal : ∀ v ∈ d.raw, Everywhere (fun u => ¬ IsReal u) v) :
    IsExact (maxDepth - 1) (.array d.raw) := by
  obtain ⟨fields, hparse, hlookup⟩ := ofText_eq_ok_iff.mp h
  obtain ⟨hfits, hregular⟩ := fits_of_parse hparse
  obtain ⟨m, hm, hvalue⟩ := mem_of_lookup hlookup
  refine ⟨hvalue ▸ hfits m hm, hvalue ▸ (everywhere_object_iff.mp hregular).2 m hm, ?_⟩
  exact everywhere_array_iff.mpr ⟨id, hreal⟩

end Abi.Document

namespace Binding

open Text Json Abi.Document

variable {d : Abi.Document}

theorem isBlank_tab : ∀ c ∈ "\t".toList, Json.isBlank c = true := by
  intro c hc
  have htab : "\t".toList = ['\t'] := rfl
  rw [htab, List.mem_singleton] at hc
  subst hc
  rfl

theorem toList_artifactText (d : Abi.Document) :
    (artifactText (abiLiteral d)).toList =
      wrapped "abi" (chars (.lines "\t".toList 0) (.array d.raw)) := by
  have hopen : "\x7b\"abi\":".toList = '\x7b' :: (stringText "abi" ++ [':']) := rfl
  have hclose : "\x7d".toList = ['\x7d'] := rfl
  rw [artifactText, String.toList_append, String.toList_append, hopen, hclose, abiLiteral, pretty,
    String.toList_ofList, wrapped]
  simp only [List.cons_append, List.append_assoc, List.nil_append]

theorem abiConstant_eq (identifier literal : String) :
    abiConstant identifier literal =
      "export const " ++ identifier ++ "_abi = " ++ literal ++ " as const" ++ "\n" := by
  have hend : " as const\n" = " as const" ++ "\n" := rfl
  rw [abiConstant, abiName, hend]
  simp only [String.append_assoc]
  rfl

/-- **The literal reads as the values of the document.** -/
theorem parse_abiLiteral (h : IsExact (maxDepth - 1) (.array d.raw)) :
    parse (abiLiteral d) = .ok (.array d.raw) :=
  parse_pretty isBlank_tab h.succ

/-- **The literal in an object reads as the document.** -/
theorem ofText_abiLiteral (h : IsExact (maxDepth - 1) (.array d.raw)) :
    ofText (artifactText (abiLiteral d)) = .ok d := by
  have htext := toList_artifactText d
  have hlength := congrArg List.length htext
  rw [String.length_toList, wrapped, List.length_cons, List.length_append, List.length_cons,
    List.length_append] at hlength
  have hread : Reader.value ((artifactText (abiLiteral d)).length + 1) (maxDepth - 1 + 1)
      (wrapped "abi" (chars (.lines "\t".toList 0) (.array d.raw))) =
        .ok (.object [("abi", .array d.raw)], []) := by
    have hsp : (Spacing.lines "\t".toList 0).IsBlank := isBlank_tab
    exact value_wrapped hsp h (by omega) (by omega)
  have hdepth : maxDepth = maxDepth - 1 + 1 := rfl
  have hparse : parse (artifactText (abiLiteral d)) = .ok (.object [("abi", .array d.raw)]) := by
    rw [parse, Reader.run, htext, hdepth, hread]
    rfl
  exact ofText_eq_ok_iff.mpr ⟨_, hparse, rfl⟩

/--
What a module embeds is the ABI of its document: the literal is JSON and stands in the source, alone in an
object it is an artifact with that document, and a module that is rendered from this artifact is the same.
-/
structure ReadsBack (dialect : Dialect) (contract : String) (d : Abi.Document)
    (signatures : List Signature) (m : BindingModule) : Prop where
  literal : parse m.abiLiteral = .ok (.array d.raw)
  verbatim : m.source =
    banner contract ++ "\n" ++ importLine dialect (members signatures) ++ "\n"
      ++ ("export const " ++ sanitize contract ++ "_abi = " ++ m.abiLiteral ++ " as const" ++ "\n")
      ++ "\n" ++ contractType (sanitize contract) (members signatures)
      ++ "\n" ++ factory (sanitize contract) (parameterName dialect.runnerParameter 0)
  document : ofText (artifactText m.abiLiteral) = .ok d
  again : ∀ d', ofText (artifactText m.abiLiteral) = .ok d' →
    d'.items = d.items ∧ Signature.ofDocument d' = Signature.ofDocument d ∧
      BindingModule.render dialect contract d' signatures = m

/--
**The embedded ABI reads back.**  Whatever text a document was read from, if the document holds no binary64
number, then a module that is rendered from it holds a text that reads as the same document.
-/
theorem render_readsBack (dialect : Dialect) (contract : String) {text : String} {d : Abi.Document}
    (h : ofText text = .ok d) (hreal : ∀ v ∈ d.raw, Everywhere (fun u => ¬ IsReal u) v)
    (signatures : List Signature) :
    ReadsBack dialect contract d signatures (BindingModule.render dialect contract d signatures) := by
  have hexact := isExact_of_ofText h hreal
  have hdocument : ofText (artifactText (abiLiteral d)) = .ok d := ofText_abiLiteral hexact
  refine ⟨parse_abiLiteral hexact, ?_, hdocument, ?_⟩
  · rw [← abiConstant_eq]
    rfl
  · intro d' h'
    have hsame : d' = d := by
      have he := hdocument.symm.trans h'
      cases he
      rfl
    subst hsame
    exact ⟨rfl, rfl, rfl⟩

/-- An artifact with blanks, an escaped letter and a repeated key. -/
def sampleText : String := "\x7b \"abi\" : [ \x7b\"type\":\"\", \"type\":\"recei\\u0076e\"\x7d, -1 ] \x7d"

def sampleDocument : Abi.Document :=
  ⟨[.object [("type", .string "receive")], .number (.integer (-1))]⟩

theorem ofText_sample : ofText sampleText = .ok sampleDocument := by cbv

theorem notReal_sample : ∀ v ∈ sampleDocument.raw, Everywhere (fun u => ¬ IsReal u) v := by
  intro v hv
  have hraw : sampleDocument.raw = [.object [("type", .string "receive")], .number (.integer (-1))] := rfl
  rw [hraw, List.mem_cons, List.mem_singleton] at hv
  rcases hv with rfl | rfl
  · refine everywhere_object_iff.mpr ⟨id, ?_⟩
    intro m hm
    rw [List.mem_singleton] at hm
    subst hm
    exact everywhere_scalar (by simp) (by simp) id
  · exact everywhere_scalar (by simp) (by simp) id

theorem render_readsBack_sample :
    ofText sampleText = .ok sampleDocument ∧
      ReadsBack Dialect.default "Vault" sampleDocument (Signature.ofDocument sampleDocument)
        (BindingModule.render Dialect.default "Vault" sampleDocument
          (Signature.ofDocument sampleDocument)) :=
  ⟨ofText_sample, render_readsBack Dialect.default "Vault" ofText_sample notReal_sample _⟩

end Binding

end ContractBindings
