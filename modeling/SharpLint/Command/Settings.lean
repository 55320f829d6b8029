import SharpLint.Engine.Preset
import SharpLint.File.Search

/-!
# Settings of a run

The configuration comes from the file given on the command line, else from the nearest
`numguard.toml` in the analysed directory or above it, else from `.numguard.toml` in the home
directory. Patterns from the command line are added to those of the file, and a relative root in the
file starts at the file's directory.
-/

namespace SharpLint.Command

/-- Why a run fails. -/
inductive Failure where
  | unreadableConfig (file : String)
  | invalidConfig (file : String)
  | configPresent (file : String)
  | missingPath (path : String)
  | pathThroughFile (path : String)
  | ignoreFiles (messages : List String)
  | unreadable (file : String)
  | unwritable (file : String)
  | isDirectory
  | rejected (batches : Nat)
  deriving DecidableEq

def Failure.message : Failure → String
  | .unreadableConfig file => "Failed to read config: " ++ file
  | .invalidConfig file => "Invalid config: " ++ file
  | .configPresent file =>
    "Configuration file already exists at " ++ file ++ ". Use --force to overwrite."
  | .missingPath path =>
    path ++ ": IO error for operation on " ++ path ++ ": No such file or directory (os error 2)"
  | .pathThroughFile path =>
    path ++ ": IO error for operation on " ++ path ++ ": Not a directory (os error 20)"
  | .ignoreFiles messages => joinWith "\n" messages
  | .unreadable file => "Failed to read " ++ file
  | .unwritable file => "Failed to write " ++ file
  | .isDirectory => "Is a directory (os error 21)"
  | .rejected batches => toString batches ++ " fix batch(es) were rejected"

/-- A configuration and the path whose sources are analysed. -/
structure Settings where
  config : Config
  root : String

/-- Name of the configuration file of a project. -/
def configFile : String := "numguard.toml"

def userConfigFile : String := ".numguard.toml"

/-- The configured root: a dot stands for the analysed path, other roots are below `base`. -/
def analysisRoot (path base configured : String) : String :=
  if pathParts configured = [.current] then path else joinPath base configured

/-- The configuration with the patterns of the command line. A preset that is not known is dropped. -/
def adjustConfig (c : Config) (exclude : List String) : Config :=
  { c with
    preset := c.preset.filter fun name => (Preset.ofName? name).isSome
    engine := { c.engine with exclude := c.engine.exclude ++ exclude } }

variable {m : Type → Type} [Monad m]

/-- The first of some paths that is a file. -/
def firstFile (fs : FileAccess m) : List String → m (Option String)
  | [] => pure none
  | path :: paths => do if ← fs.isFile path then pure (some path) else firstFile fs paths

def findConfig (fs : FileAccess m) (home : Option String) (path : String) (given : Option String) :
    m (Option String) := do
  match given with
  | some file => pure (some file)
  | none =>
    let start := (← fs.resolve path).getD path
    let project := (ancestorPaths start).map fun dir => joinPath dir configFile
    let user := (home.map fun dir => joinPath dir userConfigFile).toList
    firstFile fs (project ++ user)

/-- The configuration of a file; without a file, the default. -/
def readConfig (fs : FileAccess m) : Option String → m (Except Failure Config)
  | none => pure (.ok .default)
  | some file => do
    match ← fs.read file with
    | none => pure (.error (.unreadableConfig file))
    | some text =>
      match Config.parse? text with
      | none => pure (.error (.invalidConfig file))
      | some config => pure (.ok config)

def Settings.resolve (fs : FileAccess m) (home : Option String) (path : String)
    (given : Option String) (exclude : List String) : m (Except Failure Settings) := do
  let file ← findConfig fs home path given
  match ← readConfig fs file with
  | .error e => pure (.error e)
  | .ok config =>
    let base := ((file.bind parentPath?).filter (!·.isEmpty)).getD path
    pure (.ok ⟨adjustConfig config exclude, analysisRoot path base config.engine.root⟩)

end SharpLint.Command
