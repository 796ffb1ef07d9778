import ContractBindings.FileSystem.Tree
import ContractBindings.Glob.Pattern

/-!
# Searching a tree

`search` finds the paths that a pattern matches.  The pattern is taken component by component: a plain
component leads straight to an entry, one with wildcards is compared with the names in a directory, and
`**` also goes into all directories below, through links.

A path is spelled as it was reached: doubled slashes and a leading `./` are lost, inner `.` and `..` are
kept.  A name that is not text matches nothing.
-/

namespace ContractBindings.Glob

open Text

/-- A component of a pattern. -/
abbrev Component := List Token

/-- Whether a component stands for any number of directories. -/
def isAnyDirectories (c : Component) : Bool := c.contains .anyDirectories

/-- The pieces of a pattern between slashes. -/
def splitSlashes : List Char → List (List Char)
  | [] => [[]]
  | c :: rest =>
    if c = '/' then [] :: splitSlashes rest
    else
      match splitSlashes rest with
      | [] => [[c]]
      | piece :: pieces => (c :: piece) :: pieces

structure Pattern where
  absolute : Bool
  components : List Component
  /-- A slash at the end asks for directories. -/
  directoriesOnly : Bool
  deriving DecidableEq, Repr

namespace Pattern

/-- Drops the empty piece behind a slash at the end. -/
def dropTerminator (pieces : List (List Char)) : List (List Char) :=
  if pieces.getLast? = some [] then pieces.dropLast else pieces

/-- Reads a pattern for paths; first as a whole, then component by component. -/
def ofChars (cs : List Char) : Except PatternError Pattern := do
  let _ ← tokenize cs
  let absolute := cs.head? == some '/'
  let components ← (dropTerminator (splitSlashes (if absolute then cs.drop 1 else cs))).mapM tokenize
  .ok ⟨absolute, components, cs.getLast? == some '/'⟩

end Pattern

/-! ## The search -/

/-- Whether a path is spelled as the current directory. -/
def isCurrent (p : Path) : Bool := p.components == [.current]

/-- The path of an entry of a directory; below the current directory it is the name alone. -/
def below (directory : Path) (name : Name) : Path :=
  if isCurrent directory then ⟨name⟩ else directory.join ⟨name⟩

/-- The names of the directory itself and of the one above. -/
def specialNames : List Name := [[Path.dot], [Path.dot, Path.dot]]

def matchesName (c : Component) (name : Name) : Bool :=
  match decode? name with
  | some text => Token.matches c text.toList
  | none => false

/-- The paths for a path that is known to match a component; `descend` goes on with the others. -/
def proceed (fs : FileSystem) (directoriesOnly : Bool) (descend : List Component → Path → List Path)
    (rest : List Component) (p : Path) : List Path :=
  if rest.isEmpty then (if directoriesOnly && !fs.isDirectory p then [] else [p])
  else descend rest p

/-- The paths for an entry of a directory, compared by its name. -/
def compareName (fs : FileSystem) (directoriesOnly : Bool)
    (descend : List Component → Path → List Path) (components : List Component) (name : Name)
    (p : Path) : List Path :=
  match components with
  | [] => []
  | c :: rest =>
    if matchesName c name then proceed fs directoriesOnly descend rest p else []

/-- The paths for an entry of a directory.  `**` also goes into the entry if it is a directory. -/
def visit (fs : FileSystem) (directoriesOnly : Bool) (descend : List Component → Path → List Path)
    (c : Component) (rest : List Component) (name : Name) (p : Path) : List Path :=
  if isAnyDirectories c then
    let rest := rest.dropWhile isAnyDirectories
    let inside := if fs.isDirectory p then descend (c :: rest) p else []
    if rest.isEmpty then (if fs.isDirectory p then p :: inside else [])
    else inside ++ compareName fs directoriesOnly descend rest name p
  else compareName fs directoriesOnly descend (c :: rest) name p

/-- The paths in a directory for a component with wildcards and the components behind it. -/
def inDirectory (fs : FileSystem) (directoriesOnly : Bool)
    (descend : List Component → Path → List Path) (c : Component) (rest : List Component)
    (directory : Path) : List Path :=
  let names := match fs.namesIn directory with
    | .ok names => names
    | .error _ => []
  let specials := if c.head? = some (.char '.') then specialNames.filter (matchesName c) else []
  (names.flatMap fun name => visit fs directoriesOnly descend c rest name (below directory name))
    ++ specials.flatMap fun name =>
      proceed fs directoriesOnly descend rest (directory.join ⟨name⟩)

/-- The paths below a directory that components match, found by walks of at most `depth` steps. -/
def descend (fs : FileSystem) (directoriesOnly : Bool) : Nat → List Component → Path → List Path
  | 0, _, _ => []
  | _ + 1, [], _ => []
  | depth + 1, c :: rest, directory =>
    if !fs.isDirectory directory then []
    else
      match Token.literal? c with
      | none => inDirectory fs directoriesOnly (descend fs directoriesOnly depth) c rest directory
      | some cs =>
        let name := encode (String.ofList cs)
        let next := below directory name
        if specialNames.contains name || (fs.lookup false next).toBool then
          proceed fs directoriesOnly (descend fs directoriesOnly depth) rest next
        else []

/--
A bound for the steps of a walk.  Between two links a walk only goes deeper, no deeper than there are
entries, and a walk through more links than are allowed leads nowhere; components that are no `**` are
used up.
-/
def maxSteps (fs : FileSystem) (components : List Component) : Nat :=
  components.length + (FileSystem.maxLinks + 1) * (fs.entries.length + 1) + 1

/-- The paths that a pattern matches. -/
def search (fs : FileSystem) (pattern : Pattern) : List Path :=
  descend fs pattern.directoriesOnly (maxSteps fs pattern.components) pattern.components
    (if pattern.absolute then Path.root else Path.current)

/-- The pattern of the files below a directory with an extension. -/
def filesPattern (directory : Path) (extension : String) : List Char :=
  escape directory.display.toList ++ "/**/*.".toList ++ extension.toList

/-- The files below a directory that have an extension, in order. -/
def filesBelow (fs : FileSystem) (directory : Path) (extension : String) :
    Except PatternError (List Path) := do
  let pattern ← Pattern.ofChars (filesPattern directory extension)
  .ok (Path.sort ((search fs pattern).filter fs.isFile))

end ContractBindings.Glob
