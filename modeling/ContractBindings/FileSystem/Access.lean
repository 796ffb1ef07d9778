import ContractBindings.FileSystem.Tree

/-!
# Reading and changing files

Operations on the file that a path denotes.  `contentsAt` and `putFile` go through symbolic links;
`createDirectories` makes a directory and those above it that are missing.
-/

namespace ContractBindings.FileSystem

open Text

/-- The bytes of a file.  What a program consists of is not known. -/
def contentsAt (fs : FileSystem) (p : Path) : Except IoError Bytes :=
  match fs.lookup true p with
  | .error e => .error e
  | .ok (.file contents) => .ok contents
  | .ok (.program _) => .ok []
  | .ok _ => .error .isDirectory

def textAt (fs : FileSystem) (p : Path) : Except IoError String :=
  match fs.contentsAt p with
  | .error e => .error e
  | .ok contents =>
    match decode? contents with
    | some text => .ok text
    | none => .error .notText

/-- Writes a file, which is created if its directory exists. -/
def putFile (fs : FileSystem) (p : Path) (contents : Bytes) : Except IoError FileSystem :=
  match fs.locate true p with
  | .error e => .error e
  | .ok (.vacant l asDirectory) =>
    if asDirectory then .error .isDirectory else .ok (fs.set l (.file contents))
  | .ok (.found l) =>
    if fs.isDirectoryAt l then .error .isDirectory else .ok (fs.set l (.file contents))

def createDirectory (fs : FileSystem) (p : Path) : Except IoError FileSystem :=
  let p' := p.withoutTrailingSlashes
  if p'.isEmpty then .error (if p.isEmpty then .notFound else .alreadyExists)
  else
    match fs.locate false p' with
    | .error e => .error e
    | .ok (.found _) => .error .alreadyExists
    | .ok (.vacant l _) => .ok (fs.set l .directory)

/--
Makes a directory whose parent exists; one that is there already is fine.  The result is the file
system and the error, if there was one.
-/
def createLast (fs : FileSystem) (p : Path) : FileSystem × Except IoError Unit :=
  match fs.createDirectory p with
  | .ok fs => (fs, .ok ())
  | .error e => (fs, if fs.isDirectory p then .ok () else .error e)

/-- Makes a directory and at most the given number of directories above it. -/
def createUpTo (fs : FileSystem) (p : Path) : Nat → FileSystem × Except IoError Unit
  | 0 => fs.createLast p
  | levels + 1 =>
    if p.isEmpty then (fs, .ok ())
    else
      match fs.createDirectory p with
      | .error .notFound =>
        match p.parent? with
        | none => (fs, .error .notFound)
        | some parent =>
          match createUpTo fs parent levels with
          | (fs, .error e) => (fs, .error e)
          | (fs, .ok ()) => fs.createLast p
      | _ => fs.createLast p

/-- Makes a directory and those above it that are missing. -/
def createDirectories (fs : FileSystem) (p : Path) : FileSystem × Except IoError Unit :=
  fs.createUpTo p p.pieces.length

/-- Makes a directory unless it exists. -/
def ensureDirectory (fs : FileSystem) (p : Path) : FileSystem × Except IoError Unit :=
  if fs.isDirectory p then (fs, .ok ()) else fs.createDirectories p

/-! ## Setting up a tree -/

/-- Puts an entry at a path, in directories that are made for it, in the place of what was there. -/
def install (fs : FileSystem) (p : Path) (e : Entry) : FileSystem :=
  let fs := (fs.createDirectories (p.parent?.getD ⟨[]⟩)).1
  match fs.locate false p with
  | .ok (.found l) | .ok (.vacant l _) => fs.set l e
  | .error _ => fs

/-- Writes a file through links, in directories that are made for it. -/
def installFile (fs : FileSystem) (p : Path) (contents : Bytes) : FileSystem :=
  let fs := (fs.createDirectories (p.parent?.getD ⟨[]⟩)).1
  match fs.putFile p contents with
  | .ok fs => fs
  | .error _ => fs

/-- Removes a file, a link or a whole directory. -/
def remove (fs : FileSystem) (p : Path) : FileSystem :=
  match fs.locate false p with
  | .ok (.found l) => { fs with entries := fs.entries.filter fun (k, _) => !l.isPrefixOf k }
  | _ => fs

/-! ## Comparing trees -/

/-- A file or directory that was changed or made. -/
inductive Change where
  | directory (path : Path)
  | file (path : Path) (contents : Bytes)
  deriving DecidableEq, Repr

/-- The path of a location below the working directory. -/
def relativePath? (fs : FileSystem) (l : Location) : Option Path :=
  match fs.workingDirectory.isPrefixOf? l with
  | some (name :: names) => some ⟨Path.joinPieces (name :: names)⟩
  | _ => none

/-- The files below the working directory with other contents than before, and the new directories. -/
def changes (before after : FileSystem) : List Change :=
  after.entries.filterMap fun (l, e) =>
    if before.entryAt? l = some e then none
    else
      match e, after.relativePath? l with
      | .directory, some p => some (.directory p)
      | .file contents, some p => some (.file p contents)
      | _, _ => none

end ContractBindings.FileSystem
