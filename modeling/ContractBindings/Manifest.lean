import ContractBindings.Binding.Module
import ContractBindings.FileSystem.Access
import ContractBindings.Toml.Reader

/-!
# Manifests

A source directory may hold a manifest, a TOML document whose keys are all optional.  Keys that a
manifest does not have are refused at the top level and ignored in the `dialect` table; values of a
wrong type are refused.  The first fault in the order of the document is reported.
-/

namespace ContractBindings

open Binding

/-- The settings of a source directory. -/
structure Manifest where
  /-- The directory of the artifacts, relative to the source directory. -/
  artifacts : Option Path := none
  artifactExtension : Option String := none
  bindingExtension : Option String := none
  /-- The compiler. -/
  solc : Option Path := none
  dialect : Option Dialect := none
  deriving DecidableEq, Repr

/-- Why a manifest cannot be used. -/
inductive ManifestError where
  | io (error : IoError)
  /-- The file is not TOML. -/
  | malformed (path : Path)
  | shape (path : Path) (error : ShapeError)
  deriving DecidableEq, Repr

namespace ManifestError

/-- The wording of an error, without what is wrong in the document. -/
def message : ManifestError → String
  | io error => "io error: " ++ error.message
  | malformed path => "toml read error in " ++ path.display ++ ": "
  | shape path _ => "toml read error in " ++ path.display ++ ": "

end ManifestError

namespace Manifest

def fileName : String := "Typify.toml"

def keys : List String :=
  ["artifacts", "artifact_extension", "binding_extension", "solc", "dialect"]

def readString : Toml → Except ShapeError String
  | .string s => .ok s
  | v => .error (.invalidType v.found "a string")

def readPath : Toml → Except ShapeError Path
  | .string s => .ok (Path.ofString s)
  | v => .error (.invalidType v.found "path string")

def readDialectEntry (d : Dialect) (key : String) (value : Toml) : Except ShapeError Dialect :=
  if key = "runtime_module" then (readString value).map fun s => { d with runtimeModule := s }
  else if key = "runner_param" then (readString value).map fun s => { d with runnerParameter := s }
  else .ok d

/-- The keys of a dialect, in the order of its elements when it is written as an array. -/
def dialectKeys : List String := ["runtime_module", "runner_param"]

/-- Reads a dialect: a table, or an array of its values.  A date has none of the keys. -/
def readDialect : Toml → Except ShapeError Dialect
  | .table entries => entries.foldlM (fun d (key, value) => readDialectEntry d key value) .default
  | .array elements =>
    (dialectKeys.zip elements).foldlM (fun d (key, value) => readDialectEntry d key value) .default
  | .dateTime => .ok .default
  | v => .error (.invalidType v.found "struct Dialect")

def readEntry (m : Manifest) (key : String) (value : Toml) : Except ShapeError Manifest :=
  if key = "artifacts" then (readPath value).map fun p => { m with artifacts := some p }
  else if key = "artifact_extension" then
    (readString value).map fun s => { m with artifactExtension := some s }
  else if key = "binding_extension" then
    (readString value).map fun s => { m with bindingExtension := some s }
  else if key = "solc" then (readPath value).map fun p => { m with solc := some p }
  else if key = "dialect" then (readDialect value).map fun d => { m with dialect := some d }
  else .error (.unknownField key keys)

/-- Reads the entries of a document in order. -/
def ofEntries (entries : Toml.Entries) : Except ShapeError Manifest :=
  entries.foldlM (fun m (key, value) => readEntry m key value) {}

/-- The place of the manifest of a source directory. -/
def pathIn (source : Path) : Path := source.join (Path.ofString fileName)

/-- Reads the manifest of a source directory, if it has one. -/
def load (files : FileSystem) (source : Path) : Except ManifestError (Option Manifest) :=
  let path := pathIn source
  if !files.pathExists path then .ok none
  else
    match files.textAt path with
    | .error e => .error (.io e)
    | .ok text =>
      match Toml.parse text with
      | none => .error (.malformed path)
      | some entries =>
        match ofEntries entries with
        | .error e => .error (.shape path e)
        | .ok m => .ok (some m)

end Manifest

/-! ## Configurations -/

/-- What a run works on. -/
structure Config where
  source : Path
  artifacts : Path
  artifactExtension : String
  bindingExtension : String
  dialect : Dialect
  deriving DecidableEq, Repr

namespace Config

/-- The directory of the artifacts below a source directory where nothing else is said. -/
def defaultArtifacts : Path := Path.ofString "artifacts"

def defaultArtifactExtension : String := "json"

/-- The configuration of a source directory where nothing else is said. -/
def ofSource (source : Path) : Config where
  source := source
  artifacts := source.join defaultArtifacts
  artifactExtension := defaultArtifactExtension
  bindingExtension := defaultExtension
  dialect := Dialect.default

/-- The configuration with what a manifest says. -/
def withManifest (c : Config) (m : Manifest) : Config where
  source := c.source
  artifacts := match m.artifacts with
    | some p => c.source.join p
    | none => c.artifacts
  artifactExtension := m.artifactExtension.getD c.artifactExtension
  bindingExtension := m.bindingExtension.getD c.bindingExtension
  dialect := m.dialect.getD c.dialect

end Config

end ContractBindings
