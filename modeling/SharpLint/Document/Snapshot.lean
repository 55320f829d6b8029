import SharpLint.Document.Order
import SharpLint.Text.Lines
import SharpLint.Tree.Node

/-!
# Snapshots

A document is a tree under a name, and a snapshot is a set of documents, kept in the order of their
ids. Snapshots are values: an update makes a new one.
-/

namespace SharpLint

/-- A source file. -/
structure Document where
  id : DocumentId
  root : Tree
  deriving DecidableEq

namespace Document

def rootNode (d : Document) : Node := .root d.root

def text (d : Document) : String := d.root.fullText

/-- Characters of the source text. -/
def chars (d : Document) : List Char := d.root.fullChars

end Document

/-- Documents in the order of their ids, at most one for each id. -/
structure Snapshot where
  documents : List Document
  sorted : SortedBy Document.id documents
  deriving DecidableEq

namespace Snapshot

/-- No document. -/
def empty : Snapshot := ⟨[], .nil⟩

/-- With a document added, or put in the place of the one with the same id. -/
def insert (s : Snapshot) (d : Document) : Snapshot :=
  ⟨upsert Document.id d (fun _ => d) s.documents, upsert_sorted (fun _ heq => heq) s.sorted⟩

def find? (s : Snapshot) (id : DocumentId) : Option Document := s.documents.find? (·.id.same id)

def erase (s : Snapshot) (id : DocumentId) : Snapshot :=
  ⟨s.documents.filter fun d => !d.id.same id, s.sorted.sublist List.filter_sublist⟩

theorem id_ite (d : Document) (c : Bool) (root : Tree) :
    (if c then { d with root := root } else d).id = d.id := by
  cases c with
  | true => rfl
  | false => rfl

/-- With another tree for the document of an id. -/
def setRoot (s : Snapshot) (id : DocumentId) (root : Tree) : Snapshot :=
  ⟨s.documents.map fun d => if d.id.same id then { d with root := root } else d,
    s.sorted.map fun d => id_ite d _ root⟩

theorem eq_of_documents {s t : Snapshot} (h : s.documents = t.documents) : s = t := by
  cases s
  cases t
  cases h
  rfl

end Snapshot

end SharpLint
