import SharpLint.Engine.Basic

/-!
# Applying fixes

`fixOne?` applies the first fix of a diagnostic inside its own document. `fixAll` merges one fix for
every diagnostic of a code and applies all of them or none. `fixCodes` runs `fixAll` for one code
after the other and binds the names anew in between.
-/

namespace SharpLint

namespace Engine

/-- The codes that some provider handles, sorted. -/
def fixableCodes (e : Engine) : List String :=
  (stableSort compareText (e.providers.flatMap Provider.codes)).eraseDups

def fixesFor (e : Engine) (s : Snapshot) (host : Host) (d : Diagnostic) : List Fix :=
  (e.providers.filter (·.handles d.code)).flatMap fun p => p.propose s host d

/-- The snapshot with the first fix of a diagnostic applied to the fix's document. -/
def fixOne? (e : Engine) (s : Snapshot) (host : Host) (d : Diagnostic) : Option Snapshot :=
  match e.fixesFor s host d with
  | [] => none
  | fix :: _ =>
    match fix.changes s with
    | .error _ => none
    | .ok changes =>
      let own := changes.restrictTo fix.document
      if own.isEmpty then none else (s.apply own e.config.engine.overlapPolicy).toOption

/-- One fix for each diagnostic that has a fix with the key of the first fix of all. -/
def chooseFixes (proposals : List (List Fix)) : List Fix :=
  match proposals.findSome? List.head? with
  | none => []
  | some first => proposals.filterMap fun fixes => fixes.find? (·.key == first.key)

/-- All changes of some fixes. -/
def mergeChanges (s : Snapshot) : ChangeSet → List Fix → Except FixError ChangeSet
  | merged, [] => .ok merged
  | merged, fix :: fixes => do
    let changes ← fix.changes s
    if changes.isComplete then mergeChanges s (merged.merge changes) fixes
    else .error (.unresolved changes.unresolved.length)

/-- What a batch did. -/
structure BatchResult where
  snapshot : Snapshot
  fixed : Nat
  documents : List DocumentId

/-- The fixes for all diagnostics of a code, applied together. -/
def fixAll (e : Engine) (s : Snapshot) (host : Host) (code : String) : Except FixError BatchResult :=
  match e.providers.find? (·.handles code) with
  | none => .error (.noProvider code)
  | some provider =>
    if !provider.inBatches then .error (.batchUnsupported code)
    else do
      let targets := (e.analyze s host).withCode code
      let chosen := chooseFixes (targets.map (provider.propose s host))
      let merged ← mergeChanges s .empty chosen
      let updated ← s.applyChanges merged e.config.engine.overlapPolicy
      pure ⟨updated, chosen.length, merged.documents⟩

end Engine

/-! ## Several codes -/

/-- A code that could not be fixed. -/
structure FixFailure where
  code : String
  cause : FixError
  deriving DecidableEq

/-- What a run over several codes did. -/
structure FixReport where
  snapshot : Snapshot
  /-- Number of fixes of the last batch of each code, by code. -/
  fixed : List (String × Nat)
  /-- Documents with edits, in the order of their ids. -/
  documents : List DocumentId
  failures : List FixFailure

namespace FixReport

/-- Nothing done yet. -/
def start (s : Snapshot) : FixReport := ⟨s, [], [], []⟩

/-- Number of all fixes counted. -/
def total (r : FixReport) : Nat := r.fixed.foldr (fun entry n => entry.2 + n) 0

/-- With the count of a code, in the place of the one it has; codes stay sorted. -/
def setCount (code : String) (n : Nat) : List (String × Nat) → List (String × Nat)
  | [] => [(code, n)]
  | (c, m) :: counts =>
    match compareText code c with
    | .lt => (code, n) :: (c, m) :: counts
    | .eq => (c, n) :: counts
    | .gt => (c, m) :: setCount code n counts

/-- With a document added unless it is there. -/
def addDocument (documents : List DocumentId) (d : DocumentId) : List DocumentId :=
  upsert id d id documents

/-- With the result of a batch taken over. A batch without fixes changes nothing. -/
def accept (r : FixReport) (code : String) (b : Engine.BatchResult) : FixReport :=
  if b.fixed = 0 then r
  else
    { r with
      snapshot := b.snapshot
      fixed := setCount code b.fixed r.fixed
      documents := b.documents.foldl addDocument r.documents }

end FixReport

namespace Engine

/-- The report with the batch of one more code. -/
def fixCode (e : Engine) (r : FixReport) (code : String) : FixReport :=
  let w := Workspace.ofSnapshot r.snapshot
  match e.fixAll w.snapshot w.host code with
  | .ok b => r.accept code b
  | .error cause => { r with failures := r.failures ++ [⟨code, cause⟩] }

/-- The batches of some codes, one after the other. -/
def fixCodes (e : Engine) (s : Snapshot) (codes : List String) : FixReport :=
  codes.foldl e.fixCode (.start s)

/-- The batches of all codes that can be fixed. -/
def fixEverything (e : Engine) (s : Snapshot) : FixReport := e.fixCodes s e.fixableCodes

end Engine

end SharpLint
