import ContractBindings.CommandLine.Run

/-!
# The program

`main` takes a picture of the directories that its arguments name, runs the command line on the picture,
and carries out what changed in it.  It starts no other program, so a compiler is never found and
bindings are made from artifacts that exist.
-/

namespace ContractBindings.CommandLine

open Text

/-- A picture of the files while it is taken. -/
structure Picture where
  files : FileSystem
  /-- The locations of the directories that are in the picture with all that is in them. -/
  complete : List Location

/-! ## Places on the machine -/

/-- The location that an absolute path without links leads to. -/
def locationOf (path : String) : Location :=
  (Path.ofString path).components.filterMap fun
    | .normal name => some name
    | _ => none

/-- The place on the machine of a location. -/
def placeOf (l : Location) : IO.FS.DirEntry := ⟨"/", joined "/" (l.map decodeLossy)⟩

def kindAt? (l : Location) : IO (Option IO.FS.FileType) := do
  match ← (placeOf l).path.symlinkMetadata.toBaseIO with
  | .ok metadata => return some metadata.type
  | .error _ => return none

/-- The location that a link leads to in the end, if there is one. -/
def targetOf? (l : Location) : IO (Option Location) := do
  match ← (IO.FS.realPath (placeOf l).path).toBaseIO with
  | .ok target => return some (locationOf target.toString)
  | .error _ => return none

/-! ## Taking the picture -/

namespace Picture

def set (p : Picture) (l : Location) (e : Entry) : Picture := { p with files := p.files.set l e }

/-- The picture with a directory and those above it. -/
def addDirectory (p : Picture) (l : Location) : Picture :=
  l.foldl (fun (p, above) name => (p.set (above ++ [name]) .directory, above ++ [name]))
    (p, ([] : Location)) |>.1

def addLink (p : Picture) (l target : Location) : Picture :=
  p.set l (.link (Path.root.join ⟨Path.joinPieces target⟩))

mutual

/-- Adds what stands at a location, with all that is in it and all that it links to. -/
partial def addTree (p : Picture) (l : Location) : IO Picture := do
  match ← kindAt? l with
  | some .dir =>
    let names ← (placeOf l).path.readDir
    names.foldlM (fun p name => p.addTree (l ++ [encode name.fileName])) (p.set l .directory)
  | some .file =>
    let contents ← IO.FS.readBinFile (placeOf l).path
    return p.set l (.file contents.toList)
  | some .symlink =>
    match ← targetOf? l with
    | some target => (p.addLink l target).addTarget target
    | none => return p
  | _ => return p

/-- Adds what a link leads to, unless it is in the picture. -/
partial def addTarget (p : Picture) (target : Location) : IO Picture := do
  if p.complete.any fun l => l.isPrefixOf target then return p
  else
    let p := p.addDirectory target.dropLast
    { p with complete := target :: p.complete }.addTree target

end

/-- Adds what a path leads to from a location, and the directories and links on its way. -/
def addWay (p : Picture) (l : Location) : List Path.Step → IO Picture
  | [] => p.addTarget l
  | .here :: rest | .slash :: rest => p.addWay l rest
  | .up :: rest => p.addWay l.dropLast rest
  | .down name :: rest => do
    let next := l ++ [name]
    match ← kindAt? next with
    | some .symlink =>
      match ← targetOf? next with
      | some target => (p.addLink next target).addWay target rest
      | none => return p
    | some .dir => (p.addDirectory next).addWay next rest
    | _ => p.addTarget next

def addPath (p : Picture) (path : Path) : IO Picture :=
  p.addWay (if path.isAbsolute then [] else p.files.workingDirectory) path.steps

/-- The picture of all that a run with these options reads. -/
def ofOptions (o : Options) (p : Picture) : IO Picture := do
  let p ← p.addPath o.source
  match Manifest.load p.files o.source with
  | .ok manifest => p.addPath (configOf o manifest).artifacts
  | .error _ => return p

/-- The picture of all that a run with these arguments reads. -/
def take (arguments : List String) : IO Picture := do
  let here := locationOf (← IO.currentDir).toString
  let empty : Picture := ⟨⟨[], here⟩, []⟩
  match parse arguments with
  | .ok (.run options) => (empty.addDirectory here).ofOptions options
  | _ => return empty

end Picture

/-! ## Carrying out what changed -/

/-- Carries out a change of a path below the top of the file system. -/
def carryOut : FileSystem.Change → IO Unit
  | .directory p => IO.FS.createDir (Path.root.join p).display
  | .file p contents => IO.FS.writeBinFile (Path.root.join p).display ⟨contents.toArray⟩

/-- What differs between two pictures, by paths below the top of the file system. -/
def differences (before after : FileSystem) : List FileSystem.Change :=
  FileSystem.changes { before with workingDirectory := [] } { after with workingDirectory := [] }

/-- Runs the program on arguments; the result is its exit code. -/
def perform (arguments : List String) : IO UInt32 := do
  let before := (← Picture.take arguments).files
  let (after, ending) := run arguments { files := before, searchPath := [] }
  (differences before after.files).forM carryOut
  (ending.shown after.notices).forM fun n =>
    IO.println (n.level.word.toUpper ++ " " ++ n.message)
  IO.print ending.stdout
  IO.eprint ending.stderr
  return ending.exitCode.toUInt32

end ContractBindings.CommandLine

/-- Generates bindings as the arguments say. -/
def main (arguments : List String) : IO UInt32 := ContractBindings.CommandLine.perform arguments
