import SharpLint.File.Path

/-!
# Access to files

`FileAccess` is what the commands need of a file system, in a monad that says how it is done. `Disk`
is a file system in memory. Relative paths start at the working directory.
-/

namespace SharpLint

/-- A file or directory inside a directory. -/
structure DirectoryEntry where
  name : String
  isDirectory : Bool
  deriving DecidableEq

/-- Operations on files, by paths as they are written. -/
structure FileAccess (m : Type → Type) where
  /-- The text of a file. -/
  read : String → m (Option String)
  /-- There is a file with the path. -/
  isFile : String → m Bool
  /-- There is a file or directory with the path. -/
  isPresent : String → m Bool
  /-- The absolute path without links, if there is something there. -/
  resolve : String → m (Option String)
  /-- What is in a directory. -/
  entries : String → m (Option (List DirectoryEntry))
  /-- Writes a file; tells whether that was possible. -/
  write : String → String → m Bool

/-! ## Files in memory -/

/-- A place, by the names from the root on. -/
abbrev Place := List String

/-- A file system in memory. All directories above a file or directory exist too. -/
structure Disk where
  directories : List Place
  files : List (Place × String)
  deriving DecidableEq

namespace Disk

def places (d : Disk) : List Place := d.directories ++ d.files.map (·.1)

def text? (d : Disk) (p : Place) : Option String := (d.files.find? (·.1 == p)).map (·.2)

def isFile (d : Disk) (p : Place) : Bool := (d.text? p).isSome

/-- The place is a directory: the root, one that is listed, or one above something listed. -/
def isDirectory (d : Disk) (p : Place) : Bool :=
  p.isEmpty || d.directories.contains p || d.places.any fun q => p.length < q.length && p.isPrefixOf q

/-- Something is at the place. -/
def isPresent (d : Disk) (p : Place) : Bool := d.isFile p || d.isDirectory p

/-- One step along a path, which has to start from a directory. -/
def step? (d : Disk) (p : Place) (part : PathPart) : Option Place :=
  if d.isDirectory p then
    match part with
    | .root => some []
    | .current => some p
    | .up => some p.dropLast
    | .name name => some (p ++ [name])
  else none

/-- The path names a directory by its form. -/
def endsAsDirectory (path : String) : Bool :=
  ['/'].isSuffixOf path.toList || ['/', '.'].isSuffixOf path.toList

/-- The place of a path, seen from the directory `start`. There need not be anything at it. -/
def locate? (d : Disk) (start : Place) (path : String) : Option Place := do
  if path.isEmpty then none
  let place ← (pathParts path).foldlM d.step? start
  if endsAsDirectory path && d.isFile place then none else pure place

def entriesOf (d : Disk) (p : Place) : List DirectoryEntry :=
  let below := d.places.filterMap fun q =>
    if p.isPrefixOf q then (q.drop p.length).head? else none
  below.eraseDups.map fun name => ⟨name, d.isDirectory (p ++ [name])⟩

def set (d : Disk) (p : Place) (text : String) : Disk :=
  if d.isFile p then { d with files := d.files.map fun f => if f.1 = p then (p, text) else f }
  else { d with files := d.files ++ [(p, text)] }

def pathOf (p : Place) : String := "/" ++ joinWith "/" p

/-- The place of a path, if something is there. -/
def find? (d : Disk) (start : Place) (path : String) : Option Place :=
  (d.locate? start path).filter d.isPresent

/-- Access to a disk from a working directory. -/
def access (start : Place) : FileAccess (StateM Disk) where
  read := fun path => do
    let d ← get
    pure ((d.find? start path).bind d.text?)
  isFile := fun path => do
    let d ← get
    pure ((d.find? start path).any d.isFile)
  isPresent := fun path => do
    let d ← get
    pure (d.find? start path).isSome
  resolve := fun path => do
    let d ← get
    pure ((d.find? start path).map pathOf)
  entries := fun path => do
    let d ← get
    pure (((d.find? start path).filter d.isDirectory).map d.entriesOf)
  write := fun path text => do
    let d ← get
    match (d.locate? start path).filter fun p => !d.isDirectory p && d.isDirectory p.dropLast with
    | some p =>
      if endsAsDirectory path then pure false
      else do
        MonadState.set (d.set p text)
        pure true
    | none => pure false

end Disk

end SharpLint
