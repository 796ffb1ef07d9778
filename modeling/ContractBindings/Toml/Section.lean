import ContractBindings.Toml.Basic

/-!
# Building TOML tables

A document is read line by line into a tree of tables.  A table that only stands on the way to another
one is implicit; a header may still define it, once.  A table made by a dotted key is dotted; dotted
keys may extend it, and no header may define it.
-/

namespace ContractBindings.Toml

mutual

/-- What a key of a table under construction holds. -/
inductive Node where
  | value (value : Toml)
  | single (table : Draft)
  | several (tables : List Draft)

/-- A table under construction. -/
inductive Draft where
  | mk (implicit dotted : Bool) (nodes : List (String × Node))

end

namespace Draft

/-- Whether the table only stands on the way to another one. -/
def implicit : Draft → Bool
  | mk implicit _ _ => implicit

/-- Whether the table was made by a dotted key. -/
def dotted : Draft → Bool
  | mk _ dotted _ => dotted

/-- The keys with what they hold, in order. -/
def nodes : Draft → List (String × Node)
  | mk _ _ nodes => nodes

/-- A table without keys that a header defines. -/
def empty : Draft := mk false false []

def get? (key : String) (d : Draft) : Option Node := d.nodes.lookup key

def withNodes (d : Draft) (nodes : List (String × Node)) : Draft := mk d.implicit d.dotted nodes

/-- The table with another node at a key that it has. -/
def replace (key : String) (node : Node) (d : Draft) : Draft :=
  d.withNodes (d.nodes.map fun (k, old) => if k = key then (k, node) else (k, old))

/-- The table with one more key. -/
def append (key : String) (node : Node) (d : Draft) : Draft := d.withNodes (d.nodes ++ [(key, node)])

/-- The table without a key. -/
def erase (key : String) (d : Draft) : Draft := d.withNodes (d.nodes.filter fun (k, _) => k != key)

/-- Changes the last of several tables. -/
def changeLast (change : Draft → Option Draft) : List Draft → Option (List Draft)
  | [] => none
  | [d] => (change d).map fun d => [d]
  | d :: rest => (changeLast change rest).map (d :: ·)

/--
Changes the table at the end of a path of keys.  Tables that are missing are made, implicit and, if
`isDotted` says so, dotted.  A dotted path does not lead through tables that a header defines.
-/
def change (isDotted : Bool) (f : Draft → Option Draft) : List String → Draft → Option Draft
  | [], d => f d
  | key :: path, d =>
    match d.get? key with
    | none => (change isDotted f path (mk true isDotted [])).map fun t => d.append key (.single t)
    | some (.value _) => none
    | some (.several tables) =>
      (changeLast (change isDotted f path) tables).map fun ts => d.replace key (.several ts)
    | some (.single t) =>
      if isDotted && !t.implicit then none
      else (change isDotted f path t).map fun t => d.replace key (.single t)

/-- Adds a value under the last key of a dotted key; `path` are the keys before it. -/
def assign (path : List String) (key : String) (value : Toml) (d : Draft) : Option Draft :=
  change true
    (fun t =>
      if t.dotted == path.isEmpty then none
      else if (t.get? key).isSome then none
      else some (t.append key (.value value)))
    path d

/-- Defines the table of a header. -/
def define (path : List String) (key : String) (d : Draft) : Option Draft :=
  change false
    (fun parent =>
      match parent.get? key with
      | none => some (parent.append key (.single empty))
      | some (.single t) =>
        if t.implicit && !t.dotted then
          some ((parent.erase key).append key (.single (mk false false t.nodes)))
        else none
      | some _ => none)
    path d

/-- Adds a table to the array of tables of a header. -/
def defineElement (path : List String) (key : String) (d : Draft) : Option Draft :=
  change false
    (fun parent =>
      match parent.get? key with
      | none => some (parent.append key (.several [empty]))
      | some (.several tables) => some (parent.replace key (.several (tables ++ [empty])))
      | some _ => none)
    path d

mutual

/-- The finished entries of a table. -/
def finish : Draft → Entries
  | mk _ _ nodes => finishNodes nodes

def finishNodes : List (String × Node) → Entries
  | [] => []
  | (key, node) :: rest => (key, finishNode node) :: finishNodes rest

def finishNode : Node → Toml
  | .value v => v
  | .single t => .table t.finish
  | .several tables => .array (finishTables tables)

def finishTables : List Draft → List Toml
  | [] => []
  | t :: rest => .table t.finish :: finishTables rest

end

end Draft

end ContractBindings.Toml
