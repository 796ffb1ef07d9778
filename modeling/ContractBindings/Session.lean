import ContractBindings.FileSystem.Access
import ContractBindings.Notice

/-!
# Sessions

The state that a run reads and changes: the files, what programs were called with, and what the user
was told.  A program whose name has no slash is looked up in the directories of the search path, one
with a slash where its path leads.
-/

namespace ContractBindings

open Text

/-- The state of a run. -/
structure Session where
  files : FileSystem
  /-- Where programs are looked up, first directory first. -/
  searchPath : List Path
  /-- The arguments of all calls of programs, oldest first. -/
  calls : List (List Bytes) := []
  /-- What the user was told, oldest first. -/
  notices : List Notice := []
  deriving DecidableEq, Repr

namespace Session

def tell (s : Session) (n : Notice) : Session := { s with notices := s.notices ++ [n] }

def tellAll (s : Session) (ns : List Notice) : Session := { s with notices := s.notices ++ ns }

def programAt? (files : FileSystem) (p : Path) : Option Program :=
  match files.lookup true p with
  | .ok (.program program) => some program
  | _ => none

/-- The program that a name or a path denotes. -/
def program? (s : Session) (p : Path) : Option Program :=
  if p.bytes.contains Path.separator then programAt? s.files p
  else s.searchPath.findSome? fun directory => programAt? s.files (directory.join p)

/-- Calls a program; nothing comes back if there is no such program. -/
def call (s : Session) (p : Path) (arguments : List Bytes) : Session × Option Outcome :=
  match s.program? p with
  | some program => ({ s with calls := s.calls ++ [arguments] }, some (program.run arguments))
  | none => (s, none)

/-- Calls a program for its version, and says whether it answers. -/
def answers (s : Session) (p : Path) : Session × Bool :=
  match s.call p [versionArgument] with
  | (s, some outcome) => (s, outcome.status.isSuccess)
  | (s, none) => (s, false)

def write (s : Session) (p : Path) (contents : Bytes) : Except IoError Session :=
  match s.files.putFile p contents with
  | .ok files => .ok { s with files }
  | .error e => .error e

end Session

end ContractBindings
