import SharpLint.Document.Snapshot

/-!
# Edits of a tree

An edit names its target by span and kind, so that it can be applied to any tree with such a node.
`applyEdits` drops repeated edits, finds every target, sorts the edits by place and refuses or drops
those that overlap, and replaces from the last to the first, so that the spans of the targets still
to come stay as they are.
-/

namespace SharpLint

/-- Replace the node of a kind at a span. -/
structure Edit where
  target : Span
  kind : NodeKind
  replacement : Tree
  deriving DecidableEq

def Edit.ofNode (n : Node) (replacement : Tree) : Edit := ⟨n.span, n.kind, replacement⟩

/-- What happens to edits that overlap. -/
inductive OverlapPolicy where
  /-- None is applied. -/
  | reject
  /-- The first one, in the order of `Located.order`, is applied. -/
  | keepFirst
  deriving DecidableEq, Inhabited

/-- Why edits cannot be applied. -/
inductive ApplyError where
  | missingTarget (document : DocumentId) (span : Span) (kind : NodeKind)
  | overlap (document : DocumentId) (first second : Span)
  | unknownDocument (document : DocumentId)
  deriving DecidableEq

def ApplyError.message : ApplyError → String
  | .missingTarget d span kind => "no " ++ kind.name ++ " node at " ++ span.render ++ " in " ++ d.spelling
  | .overlap d first second =>
    "edits at " ++ first.render ++ " and " ++ second.render ++ " overlap in " ++ d.spelling
  | .unknownDocument d => "document " ++ d.spelling ++ " is not part of the snapshot"

/-- An edit and the full span of its target. -/
structure Located where
  full : Span
  edit : Edit
  deriving DecidableEq

/-- From left to right, a longer target before a shorter one at the same place. -/
def Located.order (a b : Located) : Ordering :=
  ((compare a.full.start b.full.start).then (compare b.full.stop a.full.stop)).then
    (a.edit.target.order b.edit.target)

/-- Each edit once, at its first place. -/
def distinctEdits (edits : List Edit) : List Edit :=
  edits.foldl (fun seen e => if seen.contains e then seen else seen ++ [e]) []

def findTarget (document : DocumentId) (root : Node) (e : Edit) : Except ApplyError Node :=
  match root.findNode? e.target e.kind with
  | some n => .ok n
  | none => .error (.missingTarget document e.target e.kind)

/-- Every edit with the full span of its target. -/
def locateEdits (document : DocumentId) (root : Node) : List Edit → Except ApplyError (List Located)
  | [] => .ok []
  | e :: es => do
    let n ← findTarget document root e
    let others ← locateEdits document root es
    pure (⟨n.fullSpan, e⟩ :: others)

/-- The edits of a sorted list that are applied, given those accepted before. -/
def acceptEdits (document : DocumentId) (policy : OverlapPolicy) (accepted : List Located) :
    List Located → Except ApplyError (List Located)
  | [] => .ok accepted
  | l :: ls =>
    match accepted.find? (·.full.overlaps l.full) with
    | none => acceptEdits document policy (accepted ++ [l]) ls
    | some previous =>
      match policy with
      | .reject => .error (.overlap document previous.full l.full)
      | .keepFirst => acceptEdits document policy accepted ls

/-- Replacement of one target after the other. -/
def replaceTargets (document : DocumentId) (root : Tree) : List Edit → Except ApplyError Tree
  | [] => .ok root
  | e :: es => do
    let n ← findTarget document (.root root) e
    replaceTargets document (n.replaceWith e.replacement) es

def applyEdits (document : DocumentId) (root : Tree) (edits : List Edit) (policy : OverlapPolicy) :
    Except ApplyError Tree := do
  let located ← locateEdits document (.root root) (distinctEdits edits)
  let accepted ← acceptEdits document policy [] (stableSort Located.order located)
  replaceTargets document root (accepted.reverse.map Located.edit)

end SharpLint
