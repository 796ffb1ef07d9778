import Mathlib.Data.List.Nodup
import ContractBindings.Toml.Reader

/-!
# The keys of a document are distinct

A document may define a key once.  So every table that is read has each of its keys once, at any depth,
and what a document says under a key is one value.

* `IsKeyed`: no table in a value has a key twice; `Draft.IsKeyed` says it of tables under construction;
* `Draft.change_isKeyed`: a change at the end of a path keeps it, if the change itself does;
  `assign_isKeyed`, `define_isKeyed` and `defineElement_isKeyed` are the changes of a document;
* `Draft.IsKeyed.finish`: a finished table has the keys of the draft;
* `value_isKeyed`: so every value that is read has distinct keys, by induction on the depth;
* `parse_isKeyed`: and so has every document.
-/

set_option autoImplicit false

namespace ContractBindings.Toml

/-- No table in the value has a key twice. -/
inductive IsKeyed : Toml → Prop where
  | string (s : String) : IsKeyed (.string s)
  | integer (n : Int) : IsKeyed (.integer n)
  | real (text : String) : IsKeyed (.real text)
  | boolean (b : Bool) : IsKeyed (.boolean b)
  | dateTime : IsKeyed .dateTime
  | array {elements : List Toml} (elements_isKeyed : ∀ v ∈ elements, IsKeyed v) :
    IsKeyed (.array elements)
  | table {entries : Entries} (nodup : (entries.map Prod.fst).Nodup)
    (entries_isKeyed : ∀ e ∈ entries, IsKeyed e.2) : IsKeyed (.table entries)

theorem isKeyed_table_iff {entries : Entries} :
    IsKeyed (.table entries) ↔ (entries.map Prod.fst).Nodup ∧ ∀ e ∈ entries, IsKeyed e.2 :=
  ⟨fun | .table nodup h => ⟨nodup, h⟩, fun h => .table h.1 h.2⟩

/-! ## Tables under construction -/

mutual

/-- No table in the node has a key twice. -/
inductive Node.IsKeyed : Node → Prop where
  | value {v : Toml} (h : Toml.IsKeyed v) : Node.IsKeyed (.value v)
  | single {t : Draft} (h : Draft.IsKeyed t) : Node.IsKeyed (.single t)
  | several {tables : List Draft} (h : ∀ t ∈ tables, Draft.IsKeyed t) :
    Node.IsKeyed (.several tables)

/-- Neither the table nor one in it has a key twice. -/
inductive Draft.IsKeyed : Draft → Prop where
  | mk {implicit dotted : Bool} {nodes : List (String × Node)} (nodup : (nodes.map Prod.fst).Nodup)
    (nodes_isKeyed : ∀ e ∈ nodes, Node.IsKeyed e.2) : Draft.IsKeyed (.mk implicit dotted nodes)

end

namespace Draft

variable {d d' t : Draft} {key : String} {node : Node} {v : Toml} {path : List String}

theorem isKeyed_withNodes_iff {nodes : List (String × Node)} :
    (d.withNodes nodes).IsKeyed ↔ (nodes.map Prod.fst).Nodup ∧ ∀ e ∈ nodes, e.2.IsKeyed :=
  ⟨fun | .mk nodup h => ⟨nodup, h⟩, fun h => .mk h.1 h.2⟩

theorem IsKeyed.nodup (h : d.IsKeyed) : (d.nodes.map Prod.fst).Nodup := by
  cases h with
  | mk nodup h => exact nodup

theorem IsKeyed.of_mem (h : d.IsKeyed) {e : String × Node} (he : e ∈ d.nodes) : e.2.IsKeyed := by
  cases h with
  | mk nodup h => exact h e he

theorem isKeyed_mk_nil (implicit dotted : Bool) : (mk implicit dotted []).IsKeyed :=
  .mk List.nodup_nil (by simp)

theorem isKeyed_empty : empty.IsKeyed := isKeyed_mk_nil false false

/-- What a key holds has distinct keys. -/
theorem IsKeyed.get? (h : d.IsKeyed) (hnode : d.get? key = some node) : node.IsKeyed := by
  obtain ⟨before, after, hnodes, _⟩ := List.lookup_eq_some_iff.mp hnode
  exact h.of_mem (hnodes ▸ List.mem_append_right _ List.mem_cons_self)

/-- A key that the table does not have may be added. -/
theorem IsKeyed.append (h : d.IsKeyed) (hkey : key ∉ d.nodes.map Prod.fst) (hnode : node.IsKeyed) :
    (d.append key node).IsKeyed := by
  refine isKeyed_withNodes_iff.mpr ⟨?_, fun e he => ?_⟩
  · rw [List.map_append, List.nodup_append]
    refine ⟨h.nodup, by simp, ?_⟩
    rintro k hk _ hm rfl
    cases List.mem_singleton.mp hm
    exact hkey hk
  · rcases List.mem_append.mp he with he | he
    · exact h.of_mem he
    · exact List.mem_singleton.mp he ▸ hnode

theorem not_mem_of_get? (h : d.get? key = none) : key ∉ d.nodes.map Prod.fst := by
  intro hkey
  obtain ⟨e, he, rfl⟩ := List.mem_map.mp hkey
  simpa using List.lookup_eq_none_iff.mp h e he

/-- Another node at a key leaves the keys as they are. -/
theorem IsKeyed.replace (h : d.IsKeyed) (hnode : node.IsKeyed) : (d.replace key node).IsKeyed := by
  refine isKeyed_withNodes_iff.mpr ⟨?_, fun e he => ?_⟩
  · rw [List.map_map, List.map_congr_left (g := Prod.fst)]
    · exact h.nodup
    · rintro ⟨k, old⟩ _
      dsimp only [Function.comp_apply]
      split <;> rfl
  · obtain ⟨⟨k, old⟩, hold, rfl⟩ := List.mem_map.mp he
    dsimp only
    split
    · exact hnode
    · exact h.of_mem hold

theorem IsKeyed.erase (h : d.IsKeyed) : (d.erase key).IsKeyed :=
  isKeyed_withNodes_iff.mpr ⟨h.nodup.sublist (List.filter_sublist.map _),
    fun _ he => h.of_mem (List.mem_of_mem_filter he)⟩

theorem not_mem_erase (d : Draft) (key : String) : key ∉ (d.erase key).nodes.map Prod.fst := by
  intro hkey
  obtain ⟨e, he, rfl⟩ := List.mem_map.mp hkey
  simpa using (List.mem_filter.mp he).2

/-! ## Changes -/

/-- Every table that the change makes of one with distinct keys has distinct keys. -/
def KeepsKeys (f : Draft → Option Draft) : Prop :=
  ∀ {d d' : Draft}, d.IsKeyed → f d = some d' → d'.IsKeyed

variable {f : Draft → Option Draft}

theorem changeLast_isKeyed (hf : KeepsKeys f) {tables changed : List Draft}
    (h : ∀ t ∈ tables, t.IsKeyed) (hchanged : changeLast f tables = some changed) :
    ∀ t ∈ changed, t.IsKeyed := by
  induction tables generalizing changed with
  | nil => cases hchanged
  | cons t rest ih =>
    cases rest with
    | nil =>
      obtain ⟨t', ht', rfl⟩ := Option.map_eq_some_iff.mp hchanged
      simpa using hf (h t (by simp)) ht'
    | cons s rest =>
      obtain ⟨changed, hrest, rfl⟩ := Option.map_eq_some_iff.mp hchanged
      have hs := ih (fun u hu => h u (List.mem_cons_of_mem _ hu)) hrest
      exact List.forall_mem_cons.mpr ⟨h t (by simp), hs⟩

/-- **A change at the end of a path keeps keys distinct** if the change itself does. -/
theorem change_isKeyed (isDotted : Bool) (hf : KeepsKeys f) (path : List String) :
    KeepsKeys (change isDotted f path) := by
  induction path with
  | nil => exact hf
  | cons key path ih =>
    intro d d' h hd'
    rw [change] at hd'
    split at hd'
    next hnone =>
      obtain ⟨t, ht, rfl⟩ := Option.map_eq_some_iff.mp hd'
      exact h.append (not_mem_of_get? hnone) (.single (ih (isKeyed_mk_nil true isDotted) ht))
    next => cases hd'
    next tables htables =>
      obtain ⟨changed, hchanged, rfl⟩ := Option.map_eq_some_iff.mp hd'
      cases h.get? htables with
      | several hall => exact h.replace (.several (changeLast_isKeyed ih hall hchanged))
    next t ht =>
      split at hd'
      · cases hd'
      · obtain ⟨changed, hchanged, rfl⟩ := Option.map_eq_some_iff.mp hd'
        cases h.get? ht with
        | single ht => exact h.replace (.single (ih ht hchanged))

theorem assign_isKeyed (hv : v.IsKeyed) : KeepsKeys (assign path key v) := by
  refine change_isKeyed true (fun {t t'} ht ht' => ?_) path
  simp only [Option.isSome_iff_ne_none, ne_eq] at ht'
  split at ht'
  · cases ht'
  split at ht'
  · cases ht'
  · rename_i hnone
    cases ht'
    exact ht.append (not_mem_of_get? (not_not.mp hnone)) (.value hv)

theorem define_isKeyed : KeepsKeys (define path key) := by
  refine change_isKeyed false (fun {parent parent'} h h' => ?_) path
  split at h'
  next hnone =>
    cases h'
    exact h.append (not_mem_of_get? hnone) (.single isKeyed_empty)
  next t ht =>
    split at h'
    · cases h'
      cases h.get? ht with
      | single ht => exact h.erase.append (not_mem_erase _ _) (.single (.mk ht.nodup fun _ => ht.of_mem))
    · cases h'
  next => cases h'

theorem defineElement_isKeyed : KeepsKeys (defineElement path key) := by
  refine change_isKeyed false (fun {parent parent'} h h' => ?_) path
  split at h'
  next hnone =>
    cases h'
    exact h.append (not_mem_of_get? hnone) (.several (by simpa using isKeyed_empty))
  next tables htables =>
    cases h'
    cases h.get? htables with
    | several hall =>
      refine h.replace (.several fun t ht => ?_)
      rcases List.mem_append.mp ht with ht | ht
      · exact hall t ht
      · exact List.mem_singleton.mp ht ▸ isKeyed_empty
  next => cases h'

/-! ## Finished tables -/

theorem finishNodes_eq (nodes : List (String × Node)) :
    finishNodes nodes = nodes.map fun e => (e.1, finishNode e.2) := by
  induction nodes with
  | nil => rfl
  | cons e rest ih =>
    obtain ⟨key, node⟩ := e
    rw [finishNodes, ih, List.map_cons]

theorem finishTables_eq (tables : List Draft) :
    finishTables tables = tables.map fun t => .table t.finish := by
  induction tables with
  | nil => rfl
  | cons t rest ih => rw [finishTables, ih, List.map_cons]

end Draft

mutual

theorem Node.IsKeyed.finish : ∀ {node : Node}, node.IsKeyed → (Draft.finishNode node).IsKeyed
  | _, .value h => h
  | _, .single h => h.finish
  | _, .several h => by
    rw [Draft.finishNode, Draft.finishTables_eq]
    refine .array fun v hv => ?_
    obtain ⟨t, ht, rfl⟩ := List.mem_map.mp hv
    exact (h t ht).finish

/-- **A finished table has the keys of the draft**, and each once. -/
theorem Draft.IsKeyed.finish : ∀ {d : Draft}, d.IsKeyed → (Toml.table d.finish).IsKeyed
  | _, .mk nodup h => by
    rw [Draft.finish, Draft.finishNodes_eq]
    refine .table ?_ fun v hv => ?_
    · rw [List.map_map]
      exact nodup
    · obtain ⟨e, he, rfl⟩ := List.mem_map.mp hv
      exact (h e he).finish

end

/-! ## Readers -/

/-- What the reader reads has distinct keys. -/
def ReadsKeyed (r : Reader Toml) : Prop :=
  ∀ {cs rest : List Char} {v : Toml}, r cs = some (v, rest) → v.IsKeyed

variable {item : Reader Toml} {budget : Nat} {cs rest : List Char}

theorem elements_isKeyed (hitem : ReadsKeyed item) {vs : List Toml}
    (h : elements item budget cs = some (vs, rest)) : ∀ v ∈ vs, v.IsKeyed := by
  induction budget generalizing cs rest vs with
  | zero => cases h
  | succ budget ih =>
    rw [elements] at h
    obtain ⟨cs', hfiller, h⟩ := Option.bind_eq_some_iff.mp h
    split at h
    · cases h
      simp
    obtain ⟨⟨x, behind⟩, hx, h⟩ := Option.bind_eq_some_iff.mp h
    obtain ⟨behind', hbehind, h⟩ := Option.bind_eq_some_iff.mp h
    split at h
    · obtain ⟨⟨xs, last⟩, hxs, h⟩ := Option.bind_eq_some_iff.mp h
      cases h
      exact List.forall_mem_cons.mpr ⟨hitem hx, ih hxs⟩
    · cases h
      simpa using hitem hx
    · cases h

theorem assignment_isKeyed (hitem : ReadsKeyed item) {path : List String} {key : String} {v : Toml}
    (h : assignment item budget cs = some ((path, key, v), rest)) : v.IsKeyed := by
  obtain ⟨⟨path', key', behind⟩, hkey, h⟩ := Option.bind_eq_some_iff.mp h
  dsimp only at h
  split at h
  · obtain ⟨⟨v', behind'⟩, hv, h⟩ := Option.bind_eq_some_iff.mp h
    cases h
    exact hitem hv
  · cases h

theorem inlineEntries_isKeyed (hitem : ReadsKeyed item) {d d' : Draft} (hd : d.IsKeyed)
    (h : inlineEntries item budget d cs = some (d', rest)) : d'.IsKeyed := by
  induction budget generalizing d cs rest with
  | zero => cases h
  | succ budget ih =>
    rw [inlineEntries] at h
    obtain ⟨⟨⟨path, key, v⟩, behind⟩, hentry, h⟩ := Option.bind_eq_some_iff.mp h
    obtain ⟨next, hnext, h⟩ := Option.bind_eq_some_iff.mp h
    have hkeyed := Draft.assign_isKeyed (assignment_isKeyed hitem hentry) hd hnext
    split at h
    · exact ih hkeyed h
    · cases h
      exact hkeyed
    · cases h

theorem fit?_isKeyed {n : Int} {v : Toml} (h : fit? n = some v) : v.IsKeyed := by
  unfold fit? at h
  split at h
  · cases h
    exact .integer n
  · cases h

theorem integer?_isKeyed {v : Toml} (h : integer? cs = some v) : v.IsKeyed := by
  unfold integer? at h
  split at h
  all_goals
    obtain ⟨digits, _, h⟩ := Option.bind_eq_some_iff.mp h
    exact fit?_isKeyed h

theorem real?_isKeyed {v : Toml} (h : real? cs = some v) : v.IsKeyed := by
  unfold real? at h
  dsimp only at h
  split at h
  · cases h
    exact .real _
  split at h
  · cases h
    exact .real _
  have hlast : ∀ {isWhole : Prop} [Decidable isWhole] {text : Option String},
      (if isWhole then none else text.map real) = some v → v.IsKeyed := by
    intro isWhole _ text h
    split at h
    · cases h
    · obtain ⟨text, _, rfl⟩ := Option.map_eq_some_iff.mp h
      exact .real text
  obtain ⟨whole, _, h⟩ := Option.bind_eq_some_iff.mp h
  -- with a point there is one reader more
  split at h
  case' h_1 => obtain ⟨digits, _, h⟩ := Option.bind_eq_some_iff.mp h
  all_goals
    obtain ⟨parts, _, h⟩ := Option.bind_eq_some_iff.mp h
    split at h
    · obtain ⟨exponent, _, h⟩ := Option.bind_eq_some_iff.mp h
      exact hlast h
    split at h
    · obtain ⟨digits, _, h⟩ := Option.bind_eq_some_iff.mp h
      obtain ⟨exponent, _, h⟩ := Option.bind_eq_some_iff.mp h
      exact hlast h
    · cases h

theorem ofToken?_isKeyed {v : Toml} (h : ofToken? cs = some v) : v.IsKeyed := by
  unfold ofToken? at h
  split at h
  · cases h
    exact .boolean _
  split at h
  · cases h
    exact .boolean _
  split at h
  · cases h
    exact .dateTime
  split at h
  · cases h
    exact integer?_isKeyed ‹_›
  · exact real?_isKeyed h

theorem valueWith_isKeyed {nested : Option (Reader Toml)} (hnested : ∀ item ∈ nested, ReadsKeyed item) :
    ReadsKeyed (valueWith budget nested) := by
  intro cs rest v h
  unfold valueWith at h
  split at h
  · obtain ⟨⟨s, behind⟩, _, h⟩ := Option.map_eq_some_iff.mp h
    cases h
    exact .string s
  · obtain ⟨⟨s, behind⟩, _, h⟩ := Option.map_eq_some_iff.mp h
    cases h
    exact .string s
  · obtain ⟨item, hitem, h⟩ := Option.bind_eq_some_iff.mp h
    obtain ⟨⟨vs, behind⟩, hvs, h⟩ := Option.bind_eq_some_iff.mp h
    cases h
    exact .array (elements_isKeyed (hnested item hitem) hvs)
  · obtain ⟨item, hitem, h⟩ := Option.bind_eq_some_iff.mp h
    split at h
    · cases h
      exact .table List.nodup_nil (by simp)
    · obtain ⟨⟨d, behind⟩, hd, h⟩ := Option.bind_eq_some_iff.mp h
      cases h
      exact (inlineEntries_isKeyed (hnested item hitem) Draft.isKeyed_empty hd).finish
  · obtain ⟨w, hw, h⟩ := Option.map_eq_some_iff.mp h
    cases h
    exact ofToken?_isKeyed hw

/-- **Every value that is read has distinct keys.** -/
theorem value_isKeyed (budget depth : Nat) : ReadsKeyed (value budget depth) := by
  induction depth with
  | zero => exact valueWith_isKeyed (by simp)
  | succ depth ih =>
    refine valueWith_isKeyed fun item hitem => ?_
    cases hitem
    exact ih

/-! ## Documents -/

/-- A line changes the table of a document, and says where the next assignments go. -/
theorem isKeyed_of_changed {change : Draft → Option Draft} (hchange : Draft.KeepsKeys change)
    {doc doc' : Document} (hdoc : doc.root.IsKeyed) {names : List String}
    (h : (do let root ← change doc.root; some ((⟨root, names⟩ : Document), cs)) = some (doc', rest)) :
    doc'.root.IsKeyed := by
  obtain ⟨root, hroot, h⟩ := Option.bind_eq_some_iff.mp h
  cases h
  exact hchange hdoc hroot

theorem header_isKeyed {doc doc' : Document} (hdoc : doc.root.IsKeyed)
    (h : header budget doc cs = some (doc', rest)) : doc'.root.IsKeyed := by
  unfold header at h
  split at h
  · obtain ⟨⟨path, key, behind⟩, _, h⟩ := Option.bind_eq_some_iff.mp h
    dsimp only at h
    split at h
    · exact isKeyed_of_changed Draft.defineElement_isKeyed hdoc h
    · cases h
  · obtain ⟨⟨path, key, behind⟩, _, h⟩ := Option.bind_eq_some_iff.mp h
    dsimp only at h
    split at h
    · exact isKeyed_of_changed Draft.define_isKeyed hdoc h
    · cases h
  · cases h

theorem assignmentLine_isKeyed {doc doc' : Document} (hdoc : doc.root.IsKeyed)
    (h : assignmentLine budget doc cs = some (doc', rest)) : doc'.root.IsKeyed := by
  obtain ⟨⟨⟨path, key, v⟩, behind⟩, hentry, h⟩ := Option.bind_eq_some_iff.mp h
  have hv := assignment_isKeyed (value_isKeyed budget maxDepth) hentry
  exact isKeyed_of_changed (Draft.change_isKeyed false (Draft.assign_isKeyed hv) _) hdoc h

theorem lines_isKeyed {left : Nat} {doc doc' : Document} (hdoc : doc.root.IsKeyed)
    (h : lines budget left doc cs = some doc') : doc'.root.IsKeyed := by
  induction left generalizing doc cs with
  | zero => cases h
  | succ left ih =>
    rw [lines] at h
    split at h
    · cases h
      exact hdoc
    · obtain ⟨⟨next, behind⟩, hnext, h⟩ := Option.bind_eq_some_iff.mp h
      obtain ⟨behind', _, h⟩ := Option.bind_eq_some_iff.mp h
      exact ih (header_isKeyed hdoc hnext) h
    · split at h
      · obtain ⟨behind', _, h⟩ := Option.bind_eq_some_iff.mp h
        exact ih hdoc h
      · obtain ⟨⟨next, behind⟩, hnext, h⟩ := Option.bind_eq_some_iff.mp h
        obtain ⟨behind', _, h⟩ := Option.bind_eq_some_iff.mp h
        exact ih (assignmentLine_isKeyed hdoc hnext) h

/-- **No table of a document has a key twice.** -/
theorem parse_isKeyed {text : String} {entries : Entries} (h : parse text = some entries) :
    (Toml.table entries).IsKeyed := by
  obtain ⟨doc, hdoc, rfl⟩ := Option.map_eq_some_iff.mp h
  exact (lines_isKeyed Draft.isKeyed_empty hdoc).finish

end ContractBindings.Toml
