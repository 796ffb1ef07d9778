import ContractBindings.Binding.Member
import ContractBindings.Json.Printer

/-!
# Binding modules

A module embeds the ABI it was made from, declares a type with one member for each function name, and
exports a factory that connects the ABI to an address.

Of several functions of one name the last is bound, in the place of the first (`members`);
`overloaded` lists those names.  The module imports what it uses and nothing else (`imports`).
-/

namespace ContractBindings.Binding

open Text

/-- Where the runtime types are imported from, and how the factory names its second parameter. -/
structure Dialect where
  runtimeModule : String
  runnerParameter : String
  deriving DecidableEq, Repr, Inhabited

def Dialect.default : Dialect := ⟨"ethers", "runner"⟩

/-- The extension of bindings that is used where nothing else is said. -/
def defaultExtension : String := "ts"

/-- The type that the factory connects a contract with. -/
def runnerType : String := "ContractRunner"

/-! ## Members -/

/-- Puts a signature in the place of the one with its name, or at the end. -/
def replaceByName (s : Signature) : List Signature → List Signature
  | [] => [s]
  | t :: rest => if t.name = s.name then s :: rest else t :: replaceByName s rest

/-- One signature for each name: the last one, in the place of the first. -/
def members (signatures : List Signature) : List Signature :=
  signatures.foldl (fun bound s => replaceByName s bound) []

/-- The names met a second time, each once; `seen` are the names before. -/
def repeatedNames (seen repeated : List String) : List Signature → List String
  | [] => repeated
  | s :: rest =>
    if seen.contains s.name ∧ ¬ repeated.contains s.name then
      repeatedNames seen (repeated ++ [s.name]) rest
    else repeatedNames (s.name :: seen) repeated rest

/-- The names of several functions, in the order of their second occurrence. -/
def overloaded (signatures : List Signature) : List String := repeatedNames [] [] signatures

/-! ## Imports -/

/-- The types that a module may import, in the order in which they are listed. -/
def importable : List String :=
  ["AddressLike", "Addressable", "BytesLike", runnerType, transactionType]

/-- The types that a member needs from the runtime module. -/
def memberImports (s : Signature) : List String :=
  (s.parameters.filterMap fun p => p.type.import?)
    ++ (if s.returns = .transaction then [transactionType] else [])

/-- The types that a module with these members imports. -/
def importedTypes (bound : List Signature) : List String :=
  let needed := "Addressable" :: runnerType :: bound.flatMap memberImports
  importable.filter needed.contains

/-- The entries of the import line. -/
def imports (bound : List Signature) : List String :=
  "Contract" :: (importedTypes bound).map fun type => "type " ++ type

/-! ## The module -/

/-- The name of the constant that holds the ABI. -/
def abiName (identifier : String) : String := identifier ++ "_abi"

/-- The name of the contract type. -/
def typeName (identifier : String) : String := identifier ++ "_Contract"

def factoryName (identifier : String) : String := "connect_" ++ identifier

/-- The name of the file of a binding. -/
def fileName (contractName extension : String) : String := contractName ++ "." ++ extension

/-- The ABI as it was written, indented with tabs. -/
def abiLiteral (d : Abi.Document) : String := Json.pretty "\t" (.array d.raw)

/-- The first line of a module. -/
def banner (contractName : String) : String :=
  "// This file was generated by typify-contracts from the `" ++ contractName
    ++ "` ABI. Do not edit.\n"

def importLine (dialect : Dialect) (bound : List Signature) : String :=
  "import \x7b " ++ joined ", " (imports bound) ++ " \x7d from " ++ quoted dialect.runtimeModule
    ++ "\n"

def abiConstant (identifier literal : String) : String :=
  "export const " ++ abiName identifier ++ " = " ++ literal ++ " as const\n"

def memberLines (s : Signature) : String := "\t" ++ memberComment s ++ "\n\t" ++ member s ++ "\n"

def allMemberLines : List Signature → String
  | [] => ""
  | s :: rest => memberLines s ++ allMemberLines rest

/-- The declaration of the contract type. -/
def contractType (identifier : String) (bound : List Signature) : String :=
  let head := "export type " ++ typeName identifier ++ " = Contract & \x7b"
  if bound.isEmpty then head ++ "\x7d\n"
  else head ++ "\n" ++ allMemberLines bound ++ "\x7d\n"

def factory (identifier runner : String) : String :=
  "export const " ++ factoryName identifier ++ " = (address: string | Addressable, " ++ runner
    ++ ": " ++ runnerType ++ "): " ++ typeName identifier ++ " =>\n\tnew Contract(address, "
    ++ abiName identifier ++ ", " ++ runner ++ ") as " ++ typeName identifier ++ "\n"

end Binding

/-- A binding for one contract. -/
structure BindingModule where
  contractName : String
  abiLiteral : String
  typeName : String
  factoryName : String
  source : String
  /-- The names of several functions, of which only the last is bound. -/
  overloaded : List String
  deriving DecidableEq, Repr, Inhabited

namespace BindingModule

open Binding

def fileName (m : BindingModule) (extension : String) : String := Binding.fileName m.contractName extension

def render (dialect : Dialect) (contractName : String) (d : Abi.Document)
    (signatures : List Signature) : BindingModule :=
  let identifier := Text.sanitize contractName
  let bound := members signatures
  let literal := Binding.abiLiteral d
  { contractName
    abiLiteral := literal
    typeName := Binding.typeName identifier
    factoryName := Binding.factoryName identifier
    source := banner contractName ++ "\n" ++ importLine dialect bound ++ "\n"
      ++ abiConstant identifier literal ++ "\n" ++ contractType identifier bound ++ "\n"
      ++ factory identifier (Text.parameterName dialect.runnerParameter 0)
    overloaded := Binding.overloaded signatures }

end BindingModule

end ContractBindings
