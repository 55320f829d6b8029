import SharpLint.Command.Run

/-!
# The command line

`main` runs a command on the files of the machine, prints both outputs and gives the exit status.
-/

namespace SharpLint

/-- The answer of an action, or nothing when it fails. -/
def attempt {α : Type} (action : IO α) : IO (Option α) :=
  try some <$> action catch _ => pure none

/-- The files and directories in a directory; nothing for a path that is not a directory. Links are
left out. -/
def machineEntries (path : String) : IO (Option (List DirectoryEntry)) :=
  attempt do
    let place ← IO.FS.realPath path
    let entries ← (← place.readDir).toList.mapM fun e => do
      match (← e.path.symlinkMetadata).type with
      | .dir => pure [⟨e.fileName, true⟩]
      | .file => pure [⟨e.fileName, false⟩]
      | _ => pure []
    pure entries.flatten

def machineFiles : FileAccess IO where
  read := fun path => attempt (IO.FS.readFile path)
  isFile := fun path => do
    let present ← attempt (IO.FS.realPath path)
    pure (present.isSome && (← machineEntries path).isNone)
  isPresent := fun path => do pure (← attempt (IO.FS.realPath path)).isSome
  resolve := fun path => attempt do pure (← IO.FS.realPath path).toString
  entries := machineEntries
  write := fun path text => do pure (← attempt (IO.FS.writeFile path text)).isSome

end SharpLint

/-- Runs the command that the arguments ask for. -/
def main (args : List String) : IO UInt32 := do
  let places : SharpLint.UserPlaces := ⟨← IO.getEnv "HOME", ← IO.getEnv "XDG_CONFIG_HOME"⟩
  let outcome ← SharpLint.Command.run SharpLint.machineFiles places args
  IO.print outcome.outputText
  for line in outcome.errors do
    IO.eprintln line
  pure outcome.status.toUInt32
