import ContractBindings.FileSystem.Path

/-!
# File trees

A file system is a list of entries by location, and a working directory.  A location is the list of
names from the top of the tree; the top itself is always a directory.

`locate` walks along a path, through symbolic links, to the location that the path denotes.

The tree has no hard links, permissions or limits on the length of names, paths and files: each file stands
at one location and can be read and written there, and any name without a slash or a zero byte will do.
What is stated of whole runs is stated of such trees.
-/

namespace ContractBindings

open Text

/-- Why a file cannot be accessed. -/
inductive IoError where
  | notFound
  | alreadyExists
  | notDirectory
  | isDirectory
  | tooManyLinks
  | notText
  | nulByte
  deriving DecidableEq, Repr

def IoError.message : IoError → String
  | notFound => "No such file or directory (os error 2)"
  | alreadyExists => "File exists (os error 17)"
  | notDirectory => "Not a directory (os error 20)"
  | isDirectory => "Is a directory (os error 21)"
  | tooManyLinks => "Too many levels of symbolic links (os error 40)"
  | notText => "stream did not contain valid UTF-8"
  | nulByte => "file name contained an unexpected NUL byte"

inductive ExitStatus where
  | code (code : Nat)
  | signal
  deriving DecidableEq, Repr

/-- The exit code, if the process was not ended by a signal. -/
def ExitStatus.code? : ExitStatus → Option Nat
  | code n => some n
  | signal => none

def ExitStatus.isSuccess (s : ExitStatus) : Bool := s.code? == some 0

structure Outcome where
  status : ExitStatus
  stdout : Bytes
  stderr : Bytes
  deriving DecidableEq, Repr

/-- What a program does: how it ends when asked for its version, and what it does otherwise. -/
structure Program where
  versionStatus : ExitStatus
  outcome : Outcome
  deriving DecidableEq, Repr

/-- The argument that asks a program for its version. -/
def versionArgument : Bytes := encode "--version"

def Program.run (p : Program) (arguments : List Bytes) : Outcome :=
  if arguments.head? = some versionArgument then ⟨p.versionStatus, [], []⟩ else p.outcome

inductive Entry where
  | directory
  | file (contents : Bytes)
  | program (program : Program)
  | link (target : Path)
  deriving DecidableEq, Repr

/-- The names from the top of the tree to an entry. -/
abbrev Location := List Name

/-- The entries of a file system, and the directory where relative paths start. -/
structure FileSystem where
  entries : List (Location × Entry)
  workingDirectory : Location
  deriving DecidableEq, Repr

namespace FileSystem

/-- A file system that holds nothing but a working directory of this name. -/
def fresh (name : Name) : FileSystem := ⟨[([name], .directory)], [name]⟩

/-- What stands at a location. -/
def entryAt? (fs : FileSystem) (l : Location) : Option Entry :=
  if l = [] then some .directory else fs.entries.lookup l

/-- Sets the entry at a location, in the place of an old one or at the end. -/
def setEntry (l : Location) (e : Entry) : List (Location × Entry) → List (Location × Entry)
  | [] => [(l, e)]
  | (k, old) :: rest => if k = l then (k, e) :: rest else (k, old) :: setEntry l e rest

def set (fs : FileSystem) (l : Location) (e : Entry) : FileSystem :=
  { fs with entries := setEntry l e fs.entries }

/-- The names of the entries of a directory. -/
def children (fs : FileSystem) (l : Location) : List Name :=
  fs.entries.filterMap fun (k, _) =>
    match k.getLast? with
    | some name => if k.dropLast = l then some name else none
    | none => none

/-! ## Walking along a path -/

/-- Where a walk ends. -/
inductive Spot where
  /-- At an entry. -/
  | found (location : Location)
  /-- In a directory that has no entry of this name; the path may ask for a directory. -/
  | vacant (location : Location) (asDirectory : Bool)
  deriving DecidableEq, Repr

def isDirectoryAt (fs : FileSystem) (l : Location) : Bool := fs.entryAt? l == some .directory

/--
Walks on from a location.  `jump` continues behind a symbolic link.  A link at the very end is
entered only if `follow` is set.
-/
def walkFrom (fs : FileSystem) (follow : Bool)
    (jump : Location → List Path.Step → Except IoError Spot) (l : Location) :
    List Path.Step → Except IoError Spot
  | [] => .ok (.found l)
  | step :: rest =>
    if !fs.isDirectoryAt l then .error .notDirectory
    else
      match step with
      | .here | .slash => walkFrom fs follow jump l rest
      | .up => walkFrom fs follow jump l.dropLast rest
      | .down name =>
        match fs.entryAt? (l ++ [name]) with
        | none =>
          if rest.all (· == .slash) then .ok (.vacant (l ++ [name]) (!rest.isEmpty))
          else .error .notFound
        | some (.link target) =>
          if rest.isEmpty && !follow then .ok (.found (l ++ [name]))
          else jump (if target.isAbsolute then [] else l) (target.steps ++ rest)
        | some _ => walkFrom fs follow jump (l ++ [name]) rest

/-- Walks on from a location through at most the given number of symbolic links. -/
def walk (fs : FileSystem) (follow : Bool) : Nat → Location → List Path.Step → Except IoError Spot
  | 0 => walkFrom fs follow fun _ _ => .error .tooManyLinks
  | links + 1 => walkFrom fs follow (walk fs follow links)

/-- How many symbolic links a walk may enter. -/
def maxLinks : Nat := 40

/-- The spot that a path denotes. -/
def locate (fs : FileSystem) (follow : Bool) (p : Path) : Except IoError Spot :=
  if p.bytes.contains 0 then .error .nulByte
  else if p.isEmpty then .error .notFound
  else fs.walk follow maxLinks (if p.isAbsolute then [] else fs.workingDirectory) p.steps

/-- The entry that a path denotes. -/
def lookup (fs : FileSystem) (follow : Bool) (p : Path) : Except IoError Entry :=
  match fs.locate follow p with
  | .error e => .error e
  | .ok (.vacant _ _) => .error .notFound
  | .ok (.found l) =>
    match fs.entryAt? l with
    | some entry => .ok entry
    | none => .error .notFound

def pathExists (fs : FileSystem) (p : Path) : Bool :=
  match fs.lookup true p with
  | .ok _ => true
  | .error _ => false

def isDirectory (fs : FileSystem) (p : Path) : Bool :=
  match fs.lookup true p with
  | .ok .directory => true
  | _ => false

def isFile (fs : FileSystem) (p : Path) : Bool :=
  match fs.lookup true p with
  | .ok (.file _) | .ok (.program _) => true
  | _ => false

/-- The names in the directory that a path denotes. -/
def namesIn (fs : FileSystem) (p : Path) : Except IoError (List Name) :=
  match fs.locate true p with
  | .error e => .error e
  | .ok (.vacant _ _) => .error .notFound
  | .ok (.found l) => if fs.isDirectoryAt l then .ok (fs.children l) else .error .notDirectory

end FileSystem

end ContractBindings
