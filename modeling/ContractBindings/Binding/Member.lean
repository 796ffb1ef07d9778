import ContractBindings.Signature
import ContractBindings.Text.Identifier

/-!
# Members of a contract type

One line for each function: its name, its parameters under distinct names (`parameterNames`), and what
it resolves to.  The elements of a tuple are labelled if every output has a name and the names stay
distinct as identifiers (`labelsAllowed`).
-/

namespace ContractBindings.Binding

open Text

/-- The type of a submitted transaction. -/
def transactionType : String := "ContractTransaction"

def numbered (base : String) (n : Nat) : String := base ++ "_" ++ Nat.repr n

/--
The first of `base_n`, `base_(n+1)`, … that is not taken.  Among as many candidates as there are taken
names, and one more, there is always a free one.
-/
def firstFree (taken : List String) (base : String) (n : Nat) : Nat → String
  | 0 => numbered base n
  | tries + 1 =>
    if taken.contains (numbered base n) then firstFree taken base (n + 1) tries
    else numbered base n

/-- The name for a base at a position: the base itself, or the first free number appended to it. -/
def distinctName (taken : List String) (base : String) (index : Nat) : String :=
  if taken.contains base then firstFree taken base index taken.length else base

/-- Distinct names for bases, each given the names before it; `taken` are those, in any order. -/
def distinctNames (taken : List String) (index : Nat) : List Parameter → List String
  | [] => []
  | p :: rest =>
    let name := distinctName taken (parameterName p.name index) index
    name :: distinctNames (name :: taken) (index + 1) rest

/-- Distinct identifiers for a list of parameters. -/
def parameterNames (parameters : List Parameter) : List String := distinctNames [] 0 parameters

/-- The labels that outputs would have. -/
def labels (outputs : List Parameter) : List String :=
  outputs.mapIdx fun index output => parameterName output.name index

def allDistinct : List String → Bool
  | [] => true
  | s :: rest => !rest.contains s && allDistinct rest

/-- Whether the elements of a tuple are labelled: all of them have a name, and no two labels agree. -/
def labelsAllowed (outputs : List Parameter) : Bool :=
  (outputs.all fun output => !output.name.isEmpty) && allDistinct (labels outputs)

def typed (name : String) (type : HostType) : String := name ++ ": " ++ type.render

/-- The elements of a tuple. -/
def tupleElements (outputs : List Parameter) : List String :=
  if labelsAllowed outputs then
    List.zipWith (fun label (output : Parameter) => typed label output.type)
      (labels outputs) outputs
  else outputs.map fun output => output.type.render

/-- What a call resolves to, as a type. -/
def returnType : Returns → String
  | .transaction => transactionType
  | .bare type => type.render
  | .tuple outputs => "readonly [" ++ joined ", " (tupleElements outputs) ++ "]"

def parameterList (parameters : List Parameter) : List String :=
  List.zipWith (fun name (p : Parameter) => typed name p.type) (parameterNames parameters) parameters

/-- The line of a function. -/
def member (s : Signature) : String :=
  s.name ++ "(" ++ joined ", " (parameterList s.parameters) ++ "): Promise<"
    ++ returnType s.returns ++ ">"

/-- The comment above the line of a function. -/
def memberComment (s : Signature) : String :=
  "/** `" ++ s.canonical ++ "` selector `0x" ++ Hex.ofBytes s.selector ++ "`, "
    ++ s.mutability.word ++ " */"

end ContractBindings.Binding
