import ContractBindings.Abi.Document
import ContractBindings.Compiler.Skip

/-!
# Compiler output

The compiler writes one JSON object whose `contracts` map a source and a name, with a colon between
them, to the ABI and the code of a contract.  `contractsOf` reads it; an ABI may also be a text that
holds JSON.

The outermost object is read straight from the text, so that its faults have a place; the contracts
are read from values, and their faults have none.
-/

namespace ContractBindings.Compiler

open Text Json

/-- A contract in the output of the compiler. -/
structure CompiledContract where
  name : String
  source : String
  abi : List Json
  bytecode : String
  deriving BEq, Repr, Inhabited

/-! ## The outermost object -/

/-- The fault of a value of another type: behind a scalar, before a container. -/
def mismatch (budget : Nat) (expected : String) (cs : List Char) : Fault :=
  match cs with
  | '[' :: _ => .before (.shape (.invalidType .sequence expected)) cs
  | '\x7b' :: _ => .before (.shape (.invalidType .map expected)) cs
  | cs =>
    match Reader.valueWith budget none cs with
    | .ok (v, rest) => .before (.shape (.invalidType v.found expected)) rest
    | .error fault => fault

/-- Reads the map of contracts. -/
def contractMap (budget depth : Nat) : Reader Fields := fun cs =>
  match Json.skipBlanks cs with
  | [] => .error (.atEnd .eofValue)
  | '\x7b' :: rest => do
    let (ms, rest) ← Reader.members (Reader.value budget depth) budget rest
    .ok (Reader.fieldsOfMembers ms, rest)
  | other => .error (mismatch budget "a map" other)

def contractsField : String := "contracts"

/-- The fault of a second `contracts`: a brace that follows at once counts as read. -/
def duplicateFault (rest : List Char) : Fault :=
  let cause := Cause.shape (.duplicateField contractsField)
  match Json.skipBlanks rest with
  | '\x7d' :: rest => .before cause rest
  | rest => .before cause rest

/-- Reads a member of the outermost object, behind the opening quote of its key. -/
def outputMember (budget depth : Nat) (contracts : Option Fields) : Reader (Option Fields) :=
  fun cs => do
    let (key, rest) ← Reader.stringLiteral budget cs
    if key = contractsField then
      match contracts with
      | some _ => .error (duplicateFault rest)
      | none => do
        let ((), rest) ← Reader.colon rest
        let (fields, rest) ← contractMap budget depth rest
        .ok (some fields, rest)
    else do
      let ((), rest) ← Reader.colon rest
      let ((), rest) ← Skip.value budget rest
      .ok (contracts, rest)

/-- Reads the members of the outermost object behind another one, up to the closing brace. -/
def moreOutputMembers (depth : Nat) : Nat → Option Fields → Reader (Option Fields)
  | 0, _, _ => .error (.atEnd .eofObject)
  | budget + 1, contracts, cs =>
    match Json.skipBlanks cs with
    | [] => .error (.atEnd .eofObject)
    | '\x7d' :: rest => .ok (contracts, rest)
    | ',' :: rest =>
      match Json.skipBlanks rest with
      | [] => .error (.atEnd .eofValue)
      | '"' :: next => do
        let (contracts, rest) ← outputMember (budget + 1) depth contracts next
        moreOutputMembers depth budget contracts rest
      | '\x7d' :: after => .error (.first .trailingComma ('\x7d' :: after))
      | other => .error (.first .keyNotString other)
    | other => .error (.first .expectedObjectCommaOrEnd other)

/-- Reads the outermost object, behind its opening brace. -/
def outputMembers (budget depth : Nat) : Reader (Option Fields) := fun cs =>
  match Json.skipBlanks cs with
  | [] => .error (.atEnd .eofObject)
  | '\x7d' :: rest => .ok (none, rest)
  | '"' :: next => do
    let (contracts, rest) ← outputMember budget depth none next
    moreOutputMembers depth budget contracts rest
  | other => .error (.first .keyNotString other)

/-- Reads the end of an array that holds one element. -/
def endOfElements : Reader Unit := fun cs =>
  match Json.skipBlanks cs with
  | [] => .error (.atEnd .eofList)
  | ']' :: rest => .ok ((), rest)
  | ',' :: rest =>
    match Json.skipBlanks rest with
    | ']' :: after => .error (.first .trailingComma (']' :: after))
    | rest => .error (.first .trailingCharacters rest)
  | rest => .error (.first .trailingCharacters rest)

/-- Reads the outermost object written as an array, behind its opening bracket. -/
def outputElements (budget depth : Nat) : Reader (Option Fields) := fun cs =>
  match Json.skipBlanks cs with
  | [] => .error (.atEnd .eofList)
  | ']' :: rest => .ok (none, rest)
  | next => do
    let (fields, rest) ← contractMap budget depth next
    let ((), rest) ← endOfElements rest
    .ok (some fields, rest)

/-- Reads the whole output. -/
def output (budget : Nat) : Reader (Option Fields) := fun cs =>
  match Json.skipBlanks cs with
  | [] => .error (.atEnd .eofValue)
  | '[' :: rest => outputElements budget (maxDepth - 2) rest
  | '\x7b' :: rest => outputMembers budget (maxDepth - 2) rest
  | other => .error (mismatch budget "struct CombinedJson" other)

/-! ## Contracts -/

/-- Reads the ABI and the code of a contract from the members of an object. -/
def contractOfMembers (fields : Fields) : Except ShapeError (Json × String) := do
  let code ← match fields.lookup "bin" with
    | some v => Abi.readString v
    | none => .ok ""
  match fields.lookup "abi" with
  | some abi => .ok (abi, code)
  | none => .error (.missingField "abi")

/-- Reads the ABI and the code of a contract. -/
def contractOfJson : Json → Except ShapeError (Json × String)
  | .object fields => contractOfMembers fields
  | .array [] => .error (Abi.tooShort 0 "CombinedContract" 2)
  | .array [abi] => .ok (abi, "")
  | .array (abi :: code :: more) => do
    let code ← Abi.readString code
    if more.isEmpty then .ok (abi, code)
    else .error (.invalidLength (more.length + 2) "fewer elements in array")
  | v => .error (.invalidType v.found "struct CombinedContract")

/-- Reads an ABI from a text. -/
def abiText (budget : Nat) : Reader (List Json) := fun cs =>
  match Json.skipBlanks cs with
  | [] => .error (.atEnd .eofValue)
  | '[' :: rest => Reader.elements (Reader.value budget (maxDepth - 1)) budget rest
  | other => .error (mismatch budget "a sequence" other)

/-- The entries of an ABI, which may be a text that holds JSON. -/
def abiOfJson : Json → Except ReadError (List Json)
  | .string text => (abiText (text.length + 1)).run text
  | .array items => .ok items
  | v => .error (.ofShape (.invalidType v.found "a sequence"))

/-- The part of a key before its last colon, and the part behind it. -/
def splitKey (key : String) : String × String :=
  let reversed := key.toList.reverse
  match reversed.dropWhile (· != ':') with
  | [] => ("", key)
  | _ :: source =>
    (String.ofList source.reverse, String.ofList (reversed.takeWhile (· != ':')).reverse)

/-- Reads a contract from its key and its value. -/
def contractOfField (key : String) (value : Json) : Except ReadError CompiledContract :=
  match contractOfJson value with
  | .error e => .error (.ofShape e)
  | .ok (abi, code) =>
    match abiOfJson abi with
    | .error e => .error e
    | .ok items =>
      let (source, name) := splitKey key
      .ok ⟨name, source, items, "0x" ++ code⟩

/-- Reads the contracts in the output of the compiler, in order. -/
def contractsOf (stdout : String) : Except ReadError (List CompiledContract) := do
  let fields ← (output (stdout.length + 1)).run stdout
  (fields.getD []).mapM fun (key, value) => contractOfField key value

def CompiledContract.artifact (c : CompiledContract) : Json :=
  .object
    [("contractName", .string c.name), ("sourceName", .string c.source), (Abi.abiField, .array c.abi),
     ("bytecode", .string c.bytecode)]

end ContractBindings.Compiler
