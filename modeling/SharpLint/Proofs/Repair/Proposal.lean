import SharpLint.Proofs.Change.Set
import SharpLint.Proofs.Tree.Lookup
import SharpLint.Change.Fix
import SharpLint.Rule.Basic

/-!
# Fixes that work

A diagnostic keeps the span of the node it is about, and a provider looks for the node again. In a
sound snapshot it finds that node, if the node around it has another span (`reportedNode?_eq`). A fix
works on a snapshot when its changes fit the snapshot; a provider serves a diagnostic when it
proposes one fix and that works.
-/

namespace SharpLint

/-- The diagnostic tells of a finding in a document that the host knows. -/
structure Diagnostic.Reports (d : Diagnostic) (s : Snapshot) (host : Host) (document : Document)
    (b : Bindings) (f : Finding) : Prop where
  mem : document ∈ s.documents
  bindings : host.bindings? document.id = some b
  code : d.code = f.descriptor.code
  place : d.location.document = document.id
  span : d.location.span = f.node.span

/-- The changes can be made, and fit. -/
def Fix.Works (fix : Fix) (s : Snapshot) : Prop := ∃ c, fix.changes s = .ok c ∧ c.Fits s

/-- The provider has one fix for the diagnostic, with the given key, and it works. -/
def Provider.Serves (p : Provider) (key : String) (s : Snapshot) (host : Host) (d : Diagnostic) :
    Prop :=
  ∃ fix, p.propose s host d = [fix] ∧ fix.key = key ∧ fix.Works s

variable {s : Snapshot} {host : Host} {d : Diagnostic} {document : Document} {b : Bindings}
  {f : Finding}

/-- A fix that replaces one node is applied, whatever happens to edits that overlap. -/
theorem Fix.applyStrictly_single {fix : Fix} {n : Node} {r : Tree}
    (hchanges : fix.changes s = .ok (.single document.id (.ofNode n r)))
    (hd : s.find? document.id = some document)
    (hfound : (Node.root document.root).findNode? n.span n.kind = some n) (policy : OverlapPolicy) :
    fix.applyStrictly s policy = .ok (s.setRoot document.id (n.replaceWith r)) := by
  have hcomplete : (ChangeSet.single document.id (.ofNode n r)).isComplete = true := rfl
  have happly := Snapshot.apply_single policy hd hfound r
  simp only [applyStrictly, hchanges, hcomplete, if_true, Snapshot.applyChanges, happly]

namespace Diagnostic.Reports

theorem find?_eq (h : d.Reports s host document b f) : s.find? document.id = some document :=
  s.find?_eq h.mem (DocumentId.same_iff.mpr rfl)

/-- The node that a diagnostic is about is found again. -/
theorem reportedNode?_eq (h : d.Reports s host document b f) (hs : s.Sound)
    (hinside : f.node.Inside document.root) (hword : f.node.tree.HasWord) (htight : f.node.Tight) :
    s.reportedNode? d = some f.node := by
  have hcover : document.rootNode.coveringNode f.node.span = f.node :=
    hinside.coveringNode_eq (hinside.sound (hs.root document h.mem)) hword htight
  simp only [Snapshot.reportedNode?, h.place, h.find?_eq, h.span, hcover, Option.bind_eq_bind,
    Option.bind_some, if_true, Option.pure_def]

end Diagnostic.Reports

end SharpLint
