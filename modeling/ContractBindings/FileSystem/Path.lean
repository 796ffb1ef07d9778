import ContractBindings.Text.Utf8

/-!
# Paths

A path is a sequence of bytes in which `/` separates pieces; it need not be text.  Two readings of a
path are used:

* its `components`, in which doubled slashes and inner `.` do not count — paths are ordered
  (`Path.le`), compared with a directory (`startsWith`) and taken apart by these;
* its `steps`, which say how to walk along it.
-/

namespace ContractBindings

open Text

/-- The name of an entry of a directory. -/
abbrev Name := Bytes

/-- A path, absolute if it begins with `/`. -/
structure Path where
  bytes : Bytes
  deriving DecidableEq, Repr, Inhabited

inductive Path.Component where
  | root
  | current
  | parent
  | normal (name : Name)
  deriving DecidableEq, Repr

/-- A step of a walk along a path. -/
inductive Path.Step where
  /-- To an entry of the directory. -/
  | down (name : Name)
  /-- To the directory above. -/
  | up
  /-- Nowhere: `.`, which only a directory allows. -/
  | here
  /-- Nowhere: a slash without a name, which only a directory allows. -/
  | slash
  deriving DecidableEq, Repr

namespace Path

/-- The byte `/`. -/
def separator : UInt8 := 0x2F

/-- The byte `.`. -/
def dot : UInt8 := 0x2E

def ofString (s : String) : Path := ⟨encode s⟩

/-- The path as text, with a mark for what is not text. -/
def display (p : Path) : String := decodeLossy p.bytes

def current : Path := ⟨[dot]⟩

def root : Path := ⟨[separator]⟩

def isAbsolute (p : Path) : Bool := p.bytes.head? == some separator

def isEmpty (p : Path) : Bool := p.bytes.isEmpty

/-! ## Pieces and components -/

/-- The pieces between slashes; there is always one. -/
def splitPieces : Bytes → List Bytes
  | [] => [[]]
  | b :: rest =>
    if b = separator then [] :: splitPieces rest
    else
      match splitPieces rest with
      | [] => [[b]]
      | piece :: pieces => (b :: piece) :: pieces

def pieces (p : Path) : List Bytes := splitPieces p.bytes

/-- Pieces with slashes between them. -/
def joinPieces : List Bytes → Bytes
  | [] => []
  | [piece] => piece
  | piece :: next :: rest => piece ++ separator :: joinPieces (next :: rest)

/-- Whether a piece is no component. -/
def isSilent (piece : Bytes) : Bool := piece.isEmpty || piece == [dot]

/-- The component of a piece that is not the first. -/
def component? (piece : Bytes) : Option Component :=
  if isSilent piece then none
  else if piece = [dot, dot] then some .parent
  else some (.normal piece)

def components (p : Path) : List Component :=
  match p.pieces with
  | [] => []
  | first :: rest =>
    let lead : List Component :=
      if p.isAbsolute then [.root]
      else if first = [dot] then [.current]
      else (component? first).toList
    lead ++ rest.filterMap component?

/-- The order of components: the root, the current directory, the parent, then names by bytes. -/
def Component.key : Component → List Nat
  | root => [0]
  | current => [1]
  | parent => [2]
  | normal name => 3 :: name.map UInt8.toNat

/-- What paths are ordered by. -/
def key (p : Path) : List (List Nat) := p.components.map Component.key

/--
Whether a list comes before another one: the first difference decides, and without one the shorter list
comes first.
-/
def precedes {α : Type} (lt : α → α → Bool) : List α → List α → Bool
  | _, [] => false
  | [], _ :: _ => true
  | a :: as, b :: bs => lt a b || (!lt b a && precedes lt as bs)

/-- Paths are ordered component by component. -/
def lt (p q : Path) : Bool := precedes (precedes fun m n => decide (m < n)) p.key q.key

/-- Whether a path does not come behind another one. -/
def le (p q : Path) : Bool := !lt q p

def sort (paths : List Path) : List Path := paths.mergeSort le

/-- Whether the components of a path begin with those of another. -/
def startsWith (p directory : Path) : Bool := directory.components.isPrefixOf p.components

/-! ## Taking paths apart and putting them together -/

/-- The path below a directory; an absolute path stays as it is. -/
def join (directory p : Path) : Path :=
  if p.isAbsolute then p
  else if directory.isEmpty then p
  else if directory.bytes.getLast? = some separator then ⟨directory.bytes ++ p.bytes⟩
  else ⟨directory.bytes ++ separator :: p.bytes⟩

/-- The last component, if it is a name. -/
def fileName? (p : Path) : Option Name :=
  match p.components.getLast? with
  | some (.normal name) => some name
  | _ => none

/-- A name up to its last dot; a dot at the front does not count. -/
def stem (name : Name) : Name :=
  match name.reverse.dropWhile (· != dot) with
  | [] => name
  | _ :: reversed => if reversed.isEmpty then name else reversed.reverse

/-- The name of a file without its extension. -/
def fileStem? (p : Path) : Option Name := p.fileName?.map stem

/-- Drops silent pieces at the front, but never the last one left. -/
def dropSilent : List Bytes → List Bytes
  | [] => []
  | [piece] => [piece]
  | piece :: next :: rest => if isSilent piece then dropSilent (next :: rest) else piece :: next :: rest

/-- The path whose pieces are given from the last to the first; a lone empty piece is the root. -/
def ofReversedPieces (absolute : Bool) (reversed : List Bytes) : Path :=
  if absolute ∧ reversed = [[]] then root else ⟨joinPieces reversed.reverse⟩

/-- The directory that a path names an entry of; the root and the empty path have none. -/
def parent? (p : Path) : Option Path :=
  match dropSilent p.pieces.reverse with
  | [] => none
  | [piece] => if piece.isEmpty then none else some ⟨[]⟩
  | _ :: rest => some (ofReversedPieces p.isAbsolute (dropSilent rest))

/-- The path with another name in the place of its last one. -/
def withFileName (p name : Path) : Path :=
  match p.fileName? with
  | some _ => (p.parent?.getD ⟨[]⟩).join name
  | none => p.join name

/-! ## Steps -/

def stepOfPiece (piece : Bytes) : Step :=
  if piece.isEmpty then .slash
  else if piece = [dot] then .here
  else if piece = [dot, dot] then .up
  else .down piece

def steps (p : Path) : List Step := p.pieces.map stepOfPiece

/-- The path without the slashes at its end. -/
def withoutTrailingSlashes (p : Path) : Path :=
  ⟨(p.bytes.reverse.dropWhile (· == separator)).reverse⟩

end Path

end ContractBindings
