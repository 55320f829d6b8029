import SharpLint.Change.Edit

/-!
# Change sets

Edits by document, with the declarations that could not be found. `Snapshot.apply` applies a set one
document after the other and fails as a whole if one of them fails.
-/

namespace SharpLint

/-- Where something is declared. -/
structure DeclarationRef where
  document : DocumentId
  span : Span
  kind : NodeKind
  deriving DecidableEq

/-- The edits of one document. -/
structure DocumentEdits where
  document : DocumentId
  edits : List Edit
  deriving DecidableEq

/-- Edits in the order of the document ids, and declarations that no edit was found for. -/
structure ChangeSet where
  entries : List DocumentEdits
  unresolved : List DeclarationRef
  sorted : SortedBy DocumentEdits.document entries
  deriving DecidableEq

namespace ChangeSet

def empty : ChangeSet := ⟨[], [], .nil⟩

/-- With the edits of a document added behind those it has. -/
def addAll (c : ChangeSet) (new : DocumentEdits) : ChangeSet :=
  { c with
    entries := upsert DocumentEdits.document new
      (fun old => { old with edits := old.edits ++ new.edits }) c.entries
    sorted := upsert_sorted (fun _ _ => Std.ReflCmp.compare_self) c.sorted }

def add (c : ChangeSet) (document : DocumentId) (e : Edit) : ChangeSet := c.addAll ⟨document, [e]⟩

def single (document : DocumentId) (e : Edit) : ChangeSet := empty.add document e

/-- With one more declaration that was not found. -/
def markUnresolved (c : ChangeSet) (d : DeclarationRef) : ChangeSet :=
  { c with unresolved := c.unresolved ++ [d] }

def editsFor (c : ChangeSet) (document : DocumentId) : List Edit :=
  ((c.entries.find? (·.document.same document)).map DocumentEdits.edits).getD []

def documents (c : ChangeSet) : List DocumentId := c.entries.map DocumentEdits.document

/-- Every declaration was found. -/
def isComplete (c : ChangeSet) : Bool := c.unresolved.isEmpty

def isEmpty (c : ChangeSet) : Bool := c.entries.all (·.edits.isEmpty)

/-- Only the edits of one document. -/
def restrictTo (c : ChangeSet) (document : DocumentId) : ChangeSet :=
  (c.editsFor document).foldl (fun r e => r.add document e) empty

def merge (c d : ChangeSet) : ChangeSet :=
  let merged := d.entries.foldl addAll c
  { merged with unresolved := c.unresolved ++ d.unresolved }

end ChangeSet

namespace Snapshot

def applyEntries (policy : OverlapPolicy) (s : Snapshot) :
    List DocumentEdits → Except ApplyError Snapshot
  | [] => .ok s
  | entry :: entries =>
    match s.find? entry.document with
    | none => .error (.unknownDocument entry.document)
    | some d => do
      let root ← applyEdits entry.document d.root entry.edits policy
      applyEntries policy (s.setRoot entry.document root) entries

def apply (s : Snapshot) (c : ChangeSet) (policy : OverlapPolicy) : Except ApplyError Snapshot :=
  s.applyEntries policy c.entries

end Snapshot

end SharpLint
