import SharpLint.Binding.Symbol
import SharpLint.Change.Set
import SharpLint.Diagnostic.Basic

/-!
# Fixes

A fix is a title and a function from snapshots to change sets. Fixes with the same key do the same
thing at different places. `apply` confines a fix to its own document and leaves the snapshot alone
when anything goes wrong; `applyStrictly` applies all changes or reports why not. A provider proposes
fixes for the diagnostics of some codes.
-/

namespace SharpLint

/-- Why a fix cannot be made or applied. -/
inductive FixError where
  | unknownDocument (document : DocumentId)
  | unresolved (count : Nat)
  | batchUnsupported (code : String)
  | noProvider (code : String)
  | apply (cause : ApplyError)
  deriving DecidableEq

def FixError.message : FixError → String
  | .unknownDocument d => "document " ++ d.spelling ++ " is not part of the snapshot"
  | .unresolved count => toString count ++ " declaration(s) could not be resolved"
  | .batchUnsupported code => "fix-all is not supported for " ++ code
  | .noProvider code => "no fix provider handles " ++ code
  | .apply cause => cause.message

/-- A proposed change. -/
structure Fix where
  title : String
  key : String
  document : DocumentId
  changes : Snapshot → Except FixError ChangeSet

/-- A change set applied, its failure as that of a fix. -/
def Snapshot.applyChanges (s : Snapshot) (c : ChangeSet) (policy : OverlapPolicy) :
    Except FixError Snapshot :=
  match s.apply c policy with
  | .ok updated => .ok updated
  | .error e => .error (.apply e)

namespace Fix

def applyStrictly (fix : Fix) (s : Snapshot) (policy : OverlapPolicy) : Except FixError Snapshot :=
  match fix.changes s with
  | .error e => .error e
  | .ok changes =>
    if changes.isComplete then s.applyChanges changes policy
    else .error (.unresolved changes.unresolved.length)

/-- The changes of the fix's own document applied; the snapshot as it was if that fails. -/
def apply (fix : Fix) (s : Snapshot) : Snapshot :=
  match fix.changes s with
  | .error _ => s
  | .ok changes =>
    match s.apply (changes.restrictTo fix.document) .reject with
    | .ok updated => updated
    | .error _ => s

end Fix

/-! ## Providers -/

/-- A source of fixes. -/
structure Provider where
  name : String
  codes : List String
  /-- Fixes of many diagnostics may be merged and applied together. -/
  inBatches : Bool
  propose : Snapshot → Host → Diagnostic → List Fix

def Provider.handles (p : Provider) (code : String) : Bool := p.codes.contains code

/-- The node that a diagnostic is about: the one with exactly its span. -/
def Snapshot.reportedNode? (s : Snapshot) (d : Diagnostic) : Option Node := do
  let document ← s.find? d.location.document
  let node := document.rootNode.coveringNode d.location.span
  if node.span = d.location.span then pure node else none

end SharpLint
