import SharpLint.Order
import SharpLint.Text.Search

/-!
# Document ids

A document is named by its path. Paths are the same, and are ordered, by their parts: parts stand
between slashes, and empty parts and dots are left out, except for a dot in front. An id is printed
as it was spelled.
-/

namespace SharpLint

/-- A part of a path. -/
inductive PathPart where
  /-- The slash in front of an absolute path. -/
  | root
  /-- A dot in front. -/
  | current
  /-- Two dots. -/
  | up
  | name (text : String)
  deriving DecidableEq

namespace PathPart

def rank : PathPart → Nat
  | .root => 0
  | .current => 1
  | .up => 2
  | .name _ => 3

/-- By kind, names by their bytes. -/
def order : PathPart → PathPart → Ordering
  | .name a, .name b => compareText a b
  | a, b => compare a.rank b.rank

/-- A part behind the first. -/
def ofInner? (text : String) : Option PathPart :=
  if text = "" ∨ text = "." then none else if text = ".." then some .up else some (.name text)

end PathPart

def pathParts (path : String) : List PathPart :=
  let pieces := (splitAtEach '/' path.toList).map String.ofList
  let front := match pieces with
    | "" :: _ :: _ => [PathPart.root]
    | "." :: _ => [.current]
    | _ => []
  front ++ pieces.filterMap PathPart.ofInner?

/-- Name of a document. -/
structure DocumentId where
  spelling : String
  deriving DecidableEq, Inhabited

namespace DocumentId

def parts (id : DocumentId) : List PathPart := pathParts id.spelling

/-- By the parts of the paths. -/
def order (a b : DocumentId) : Ordering := compareLists PathPart.order a.parts b.parts

/-- The two ids name one document. -/
def same (a b : DocumentId) : Bool := a.parts == b.parts

end DocumentId

/-- A list sorted by id with `fresh` put in under its id, or with `merge` applied to the entry that
already has it. -/
def upsert {α : Type} (key : α → DocumentId) (fresh : α) (merge : α → α) : List α → List α
  | [] => [fresh]
  | x :: xs =>
    match (key fresh).order (key x) with
    | .lt => fresh :: x :: xs
    | .eq => merge x :: xs
    | .gt => x :: upsert key fresh merge xs

end SharpLint
