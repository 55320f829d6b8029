import SharpLint.Config.Basic
import SharpLint.File.UserIgnore

/-!
# Searching a directory

All files below a directory that ignore files do not leave out, with the wanted extensions, and not
excluded by the configuration.
-/

namespace SharpLint

/-- Why a search fails. -/
inductive SearchFault where
  /-- There is nothing at the path. -/
  | missing
  /-- The path goes on behind a file. -/
  | throughFile
  /-- Lines of ignore files above the start are not understood. -/
  | ignoreFiles (messages : List String)
  deriving DecidableEq

variable {m : Type → Type} [Monad m]

/-! ## Ignore files of a directory -/

/-- The rules of an ignore file and the texts of its faults; a file that is missing has none. -/
def readIgnoreFile (fs : FileAccess m) (path : String) : m (List IgnoreRule × List String) := do
  let list := ((← fs.read path).map IgnoreList.ofText).getD .empty
  pure (list.rules, list.faults.map (IgnoreFault.message path))

def readFirstLine (fs : FileAccess m) (path : String) : m (Option (List Char)) := do
  pure ((← fs.read path).bind fun text => (fileLines (splitAtEach '\n' text.toList)).head?)

/-- The directory that a worktree shares with its repository, by the file that stands in place of
the repository's directory. -/
def sharedDirectory (fs : FileAccess m) (gitFile : String) : m (Option String) := do
  match (← readFirstLine fs gitFile).bind (after? "gitdir: ".toList) with
  | none => pure none
  | some own =>
    let own := String.ofList own
    match ← readFirstLine fs (joinPath own "commondir") with
    | none => pure none
    | some ('.' :: rest) => pure (some (joinPath own (String.ofList ('.' :: rest))))
    | some shared => pure (some (String.ofList shared))

/-- Path of the list that a repository keeps for itself. -/
def excludePath (fs : FileAccess m) (directory : String) : m (Option String) := do
  let git := joinPath directory ".git"
  let shared ← if ← fs.isFile git then sharedDirectory fs git else pure (some git)
  pure (shared.map (joinPath · "info/exclude"))

def holdsRepository (fs : FileAccess m) (directory : String) : m Bool := do
  if ← fs.isPresent (joinPath directory ".git") then pure true
  else fs.isPresent (joinPath directory ".jj")

/-- The ignore files of a directory, and the texts of their faults. With `git` unset, `.gitignore`
does not count. -/
def readIgnoreLevel (fs : FileAccess m) (git isRepository : Bool) (directory : String) :
    m (IgnoreLevel × List String) := do
  let (plain, faults) ← readIgnoreFile fs (joinPath directory ".ignore")
  let (own, ownFaults) ←
    if git then readIgnoreFile fs (joinPath directory ".gitignore") else pure ([], [])
  let (exclude, excludeFaults) ← match ← excludePath fs directory with
    | none => pure ([], [])
    | some path => readIgnoreFile fs path
  pure (⟨directory, isRepository, plain, own, exclude⟩, faults ++ ownFaults ++ excludeFaults)

/-- The ignore files of the directories above a resolved path, the deepest first. -/
def readLevelsAbove (fs : FileAccess m) (git : Bool) (path : String) :
    m (List (IgnoreLevel × List String)) :=
  (ancestorPaths path).tail.mapM fun above => do
    let isRepository ← if git then holdsRepository fs above else pure false
    readIgnoreLevel fs git isRepository above

/-! ## Files -/

/-- No path goes through more directories than this. -/
def maxDepth : Nat := 4096

/-- The files below a directory, by their names from `names` on. -/
def filesBelow (fs : FileAccess m) (git : Bool) :
    Nat → IgnoreScope → String → Place → m (List Place)
  | 0, _, _, _ => pure []
  | fuel + 1, scope, directory, names => do
    let isRepository ← holdsRepository fs directory
    let (level, _) ← readIgnoreLevel fs git isRepository directory
    let scope := { scope with below := level :: scope.below }
    let entries := ((← fs.entries directory).getD []).filter fun e =>
      !scope.ignores (joinPath directory e.name) e.isDirectory
    let found ← entries.mapM fun e =>
      if e.isDirectory then
        filesBelow fs git fuel scope (joinPath directory e.name) (names ++ [e.name])
      else pure [names ++ [e.name]]
    pure found.flatten

/-- The files below a directory with the given resolved path. -/
def filesFrom (fs : FileAccess m) (u : UserPlaces) (git : Bool) (root base : String) :
    m (Except SearchFault (List Place)) := do
  let above ← readLevelsAbove fs git base
  match above.reverse.flatMap (·.2) with
  | [] =>
    let workplace ← fs.resolve "."
    let user ← if workplace.isSome then readUserIgnore fs u else pure []
    let scope : IgnoreScope := ⟨root, base, [], above.map (·.1), workplace.getD "", user⟩
    .ok <$> filesBelow fs git maxDepth scope root []
  | messages => pure (.error (.ignoreFiles messages))

/-- Why there is nothing at a path: one of the paths above it is a file, or something is missing. -/
def absenceOf (fs : FileAccess m) (path : String) : m SearchFault := do
  let pieces := (splitAtEach '/' path.toList).map String.ofList
  let above := (List.range pieces.length).map fun n => joinWith "/" (pieces.take n)
  pure (if (← above.filterM fs.isFile).isEmpty then .missing else .throughFile)

/-- All files at or below a path, by their names below it. A dash is no path and has none. -/
def allFiles (fs : FileAccess m) (u : UserPlaces) (git : Bool) (root : String) :
    m (Except SearchFault (List Place)) := do
  if pathParts root == [.name "-"] then pure (.ok [])
  else
    match ← fs.resolve root with
    | none => pure (.error (← absenceOf fs root))
    | some base => if ← fs.isFile root then pure (.ok [[]]) else filesFrom fs u git root base

/-- The file has one of the extensions. -/
def hasExtension (extensions : List String) (name : String) : Bool :=
  (extension? name).any extensions.contains

/-- The source files at or below a path, by their paths below it, in order. -/
def sourceFiles (fs : FileAccess m) (u : UserPlaces) (c : Config) (root : String) :
    m (Except SearchFault (List DocumentId)) := do
  match ← allFiles fs u c.engine.respectGitignore root with
  | .error e => pure (.error e)
  | .ok places =>
    let wanted (p : Place) : Bool :=
      (p.getLast?.or (pathNames root).getLast?).any (hasExtension c.engine.extensions)
        && !c.isExcluded (joinWith "/" p)
    pure (.ok (stableSort DocumentId.order ((places.filter wanted).map fun p => ⟨joinWith "/" p⟩)))

end SharpLint
