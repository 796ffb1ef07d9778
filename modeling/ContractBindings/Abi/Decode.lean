import ContractBindings.Abi.Item
import ContractBindings.Json.Basic

/-!
# Reading ABI entries

`Item.ofJson` reads an entry from a JSON value.  A record is an object, or an array of its fields in
their order of declaration.  The fields of an object are read in the order of the document, and the
first one of a wrong shape is reported; a field that is missing is reported after all others.  Fields
that the record does not have are ignored.
-/

namespace ContractBindings.Abi

def readString : Json → Except ShapeError String
  | .string s => .ok s
  | v => .error (.invalidType v.found "a string")

def readBool : Json → Except ShapeError Bool
  | .bool b => .ok b
  | v => .error (.invalidType v.found "a boolean")

/-- The error for an array that is too short for a record with the given number of fields. -/
def tooShort (present : Nat) (record : String) (fields : Nat) : ShapeError :=
  .invalidLength present ("struct " ++ record ++ " with " ++ Nat.repr fields
    ++ (if fields = 1 then " element" else " elements"))

/-- The error for an array with more elements than a record has fields. -/
def tooLong (present fields : Nat) : ShapeError :=
  .invalidLength present (Nat.repr fields
    ++ (if fields = 1 then " element in sequence" else " elements in sequence"))

/-! ## Arguments -/

/-- The fields of an argument that have been read. -/
structure ArgumentDraft where
  type : Option String := none
  name : String := ""
  internalType : String := ""
  components : List Argument := []

namespace ArgumentDraft

/-- The argument with these fields; only its type has no default. -/
def finish (d : ArgumentDraft) : Except ShapeError Argument :=
  match d.type with
  | some type => .ok ⟨type, d.name, d.internalType, d.components⟩
  | none => .error (.missingField "type")

end ArgumentDraft

/-- The number of fields of an argument. -/
def argumentFields : Nat := 4

mutual

def readArgument : Json → Except ShapeError Argument
  | .object fields => do
    let d ← readArgumentMembers {} fields
    d.finish
  | .array elements => do
    let d ← readArgumentElements {} 0 elements
    match d.type with
    | some _ =>
      if elements.length ≤ argumentFields then d.finish
      else .error (tooLong elements.length argumentFields)
    | none => .error (tooShort 0 "Argument" argumentFields)
  | v => .error (.invalidType v.found "struct Argument")

/-- Reads the members of an argument in the order of the document. -/
def readArgumentMembers (d : ArgumentDraft) :
    List (String × Json) → Except ShapeError ArgumentDraft
  | [] => .ok d
  | (key, value) :: rest => do
    let d ← readArgumentField d key value
    readArgumentMembers d rest

/-- Reads the elements of an argument that is written as an array; the fifth and later are ignored. -/
def readArgumentElements (d : ArgumentDraft) (index : Nat) :
    List Json → Except ShapeError ArgumentDraft
  | [] => .ok d
  | value :: rest => do
    let key := match index with
      | 0 => "type"
      | 1 => "name"
      | 2 => "internalType"
      | 3 => "components"
      | _ => ""
    let d ← readArgumentField d key value
    readArgumentElements d (index + 1) rest

def readArgumentField (d : ArgumentDraft) (key : String) :
    Json → Except ShapeError ArgumentDraft
  | .array elements =>
    if key = "components" then do
      let components ← readArgumentList elements
      .ok { d with components }
    else if key = "type" ∨ key = "name" ∨ key = "internalType" then
      .error (.invalidType .sequence "a string")
    else .ok d
  | value =>
    if key = "type" then (readString value).map fun s => { d with type := some s }
    else if key = "name" then (readString value).map fun s => { d with name := s }
    else if key = "internalType" then (readString value).map fun s => { d with internalType := s }
    else if key = "components" then .error (.invalidType value.found "a sequence")
    else .ok d

/-- Reads the elements of a list of arguments. -/
def readArgumentList : List Json → Except ShapeError (List Argument)
  | [] => .ok []
  | value :: rest => do
    let a ← readArgument value
    let as ← readArgumentList rest
    .ok (a :: as)

end

/-- Reads a list whose elements are read by `item`. -/
def readList {α : Type} (item : Json → Except ShapeError α) : Json → Except ShapeError (List α)
  | .array elements => elements.mapM item
  | v => .error (.invalidType v.found "a sequence")

def readArguments : Json → Except ShapeError (List Argument) := readList readArgument

/--
Reads a parameter of an event.  It is an argument with a mark, written as one object; the mark is
read before the fields of the argument.
-/
def readEventParameter : Json → Except ShapeError EventParameter
  | .object fields => do
    let indexed ← match Json.Fields.get? "indexed" fields with
      | some v => readBool v
      | none => .ok false
    let d ← readArgumentMembers {} fields
    let argument ← d.finish
    .ok ⟨argument, indexed⟩
  | v => .error (.invalidType v.found "struct EventParam")

/-! ## Mutability -/

def mutabilityOfWord (word : String) : Except ShapeError Mutability :=
  match Mutability.ofWord? word with
  | some m => .ok m
  | none => .error (.unknownVariant word (Mutability.all.map Mutability.word))

/-- Reads a mutability: a word, or an object whose only key is the word and whose value is empty. -/
def readMutability : Json → Except ShapeError Mutability
  | .string word => mutabilityOfWord word
  | .object [(word, value)] => do
    let m ← mutabilityOfWord word
    match value with
    | .null | .object [] => .ok m
    | v => .error (.invalidType v.found "unit")
  | .object _ => .error (.invalidValue .map "map with a single key")
  | v => .error (.invalidType v.found "string or map")

/-! ## Entries -/

/-- The fields of an entry that have been read. -/
structure ItemDraft where
  name : Option String := none
  inputs : List Argument := []
  outputs : List Argument := []
  parameters : List EventParameter := []
  anonymous : Bool := false
  mutability : Option Mutability := none

/-- The fields of entries. -/
inductive ItemField where
  | name
  | inputs
  | outputs
  | parameters
  | anonymous
  | mutability
  deriving DecidableEq, Repr

namespace ItemField

def key : ItemField → String
  | name => "name"
  | inputs => "inputs"
  | outputs => "outputs"
  | parameters => "inputs"
  | anonymous => "anonymous"
  | mutability => "stateMutability"

def read (d : ItemDraft) (value : Json) : ItemField → Except ShapeError ItemDraft
  | name => (readString value).map fun s => { d with name := some s }
  | inputs => (readArguments value).map fun xs => { d with inputs := xs }
  | outputs => (readArguments value).map fun xs => { d with outputs := xs }
  | parameters => (readList readEventParameter value).map fun xs => { d with parameters := xs }
  | anonymous => (readBool value).map fun b => { d with anonymous := b }
  | mutability => (readMutability value).map fun m => { d with mutability := some m }

end ItemField

/-- The kinds of entries that are understood. -/
inductive ItemKind where
  | function
  | constructor
  | event
  | error
  | fallback
  | receive
  deriving DecidableEq, Repr

namespace ItemKind

/-- The kind that a tag names. -/
def ofTag? (tag : String) : Option ItemKind :=
  if tag = "function" then some function
  else if tag = "constructor" then some constructor
  else if tag = "event" then some event
  else if tag = "error" then some error
  else if tag = "fallback" then some fallback
  else if tag = "receive" then some receive
  else none

/-- The name of the record of a kind. -/
def record : ItemKind → String
  | function => "Function"
  | constructor => "Constructor"
  | event => "Event"
  | error => "Error"
  | fallback => "Fallback"
  | receive => "Receive"

/-- The fields of a kind, in their order of declaration. -/
def fields : ItemKind → List ItemField
  | function => [.name, .inputs, .outputs, .mutability]
  | constructor => [.inputs, .mutability]
  | event => [.name, .parameters, .anonymous]
  | error => [.name, .inputs]
  | fallback => [.mutability]
  | receive => [.mutability]

/-- The entry of a kind with these fields; `missing` is the error for a name that is absent. -/
def finish (missing : ShapeError) (d : ItemDraft) : ItemKind → Except ShapeError Item
  | function =>
    match d.name with
    | some name => .ok (.function ⟨name, d.inputs, d.outputs, d.mutability.getD .nonpayable⟩)
    | none => .error missing
  | constructor => .ok (.constructor ⟨d.inputs, d.mutability.getD .nonpayable⟩)
  | event =>
    match d.name with
    | some name => .ok (.event ⟨name, d.parameters, d.anonymous⟩)
    | none => .error missing
  | error =>
    match d.name with
    | some name => .ok (.error ⟨name, d.inputs⟩)
    | none => .error missing
  | fallback => .ok (.fallback (d.mutability.getD .nonpayable))
  | receive => .ok (.receive (d.mutability.getD .payable))

/-- Reads the members of an entry of a kind in the order of the document. -/
def readMembers (kind : ItemKind) (members : List (String × Json)) : Except ShapeError ItemDraft :=
  members.foldlM
    (fun d (key, value) =>
      match kind.fields.find? fun field => field.key == key with
      | some field => field.read d value
      | none => .ok d)
    {}

/-- Reads the elements behind the tag of an entry that is written as an array. -/
def readElements (kind : ItemKind) (elements : List Json) : Except ShapeError ItemDraft :=
  (kind.fields.zip elements).foldlM (fun d (field, value) => field.read d value) {}

/-- Reads an entry of a kind that is written as an object. -/
def ofMembers (kind : ItemKind) (members : List (String × Json)) : Except ShapeError Item := do
  let d ← kind.readMembers members
  kind.finish (.missingField "name") d

/-- Reads an entry of a kind that is written as an array, from the elements behind the tag. -/
def ofElements (kind : ItemKind) (elements : List Json) : Except ShapeError Item := do
  let d ← kind.readElements elements
  let item ← kind.finish (tooShort 0 kind.record kind.fields.length) d
  if elements.length ≤ kind.fields.length then .ok item
  else .error (tooLong elements.length kind.fields.length)

end ItemKind

def readTag : Json → Except ShapeError String
  | .string tag => .ok tag
  | v => .error (.invalidType v.found "variant identifier")

/-- Reads an entry.  A tag that is not known makes an unknown entry, not an error. -/
def Item.ofJson : Json → Except ShapeError Item
  | .object members => do
    match Json.Fields.get? "type" members with
    | none => .error (.missingField "type")
    | some v =>
      let tag ← readTag v
      match ItemKind.ofTag? tag with
      | some kind => kind.ofMembers members
      | none => .ok .unknown
  | .array [] => .error (.missingField "type")
  | .array (v :: elements) => do
    let tag ← readTag v
    match ItemKind.ofTag? tag with
    | some kind => kind.ofElements elements
    | none => if elements.isEmpty then .ok .unknown else .error (tooLong elements.length 0)
  | v => .error (.invalidType v.found "internally tagged enum AbiItem")

end ContractBindings.Abi
