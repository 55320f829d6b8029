import SharpLint.Binding.Workspace
import SharpLint.Diagnostic.Allow
import SharpLint.Engine.Preset

/-!
# Analysis

The engine shows every node of a document to the rules that ask for its kind, gives their diagnostics
the configured severity, and drops those that a directive allows. A rule that needs a reason is not
silenced without one; its diagnostics then say so. Which rules ask for a kind is looked up in a table.
-/

namespace SharpLint

/-- Rules, providers of fixes, and a configuration. -/
structure Engine where
  rules : List Rule
  providers : List Provider
  config : Config

namespace Engine

def ofConfig (c : Config) : Engine := ⟨c.chosenRules, c.providers, c⟩

end Engine

/-! ## Dispatch -/

/-- The numbers of the rules that ask for a kind. -/
abbrev Dispatch := NodeKind → List Nat

namespace Dispatch

/-- No rule asks for anything. -/
def empty : Dispatch := fun _ => []

/-- A rule asks for one more kind. -/
def push (index : Nat) (table : Dispatch) (kind : NodeKind) : Dispatch :=
  fun k => if k = kind then table k ++ [index] else table k

end Dispatch

namespace Engine

/-- The kinds of a rule added to the table, if the rule is enabled. -/
def register (e : Engine) (table : Dispatch) (entry : Rule × Nat) : Dispatch :=
  if e.config.isEnabled entry.1.name then entry.1.kinds.foldl (.push entry.2) table else table

/-- The table of all rules. -/
def dispatch (e : Engine) : Dispatch := e.rules.zipIdx.foldl e.register .empty

/-- The rules that nodes of a kind are shown to. -/
def rulesFor (e : Engine) (kind : NodeKind) : List Rule :=
  (e.dispatch kind).filterMap fun index => e.rules[index]?

/-! ## One document -/

/-- The diagnostics of a rule with the severity that the configuration gives the rule. -/
def overrideSeverity (e : Engine) (r : Rule) (ds : List Diagnostic) : List Diagnostic :=
  match e.config.severity? r.name with
  | none => ds
  | some severity => ds.map fun d => { d with severity := severity }

/-- Help for a directive that lacks a reason. -/
def reasonHelp : String := "allow directive ignored: this rule requires reason=\"...\""

def withDirective (text : List Char) (r : Rule) (d : Diagnostic) : Option Diagnostic :=
  match allowedBy? text d.location.position.line d.code r.name with
  | none => some d
  | some directive =>
    if directive.reason.isNone && r.needsReason then some { d with help := some reasonHelp } else none

def diagnosticsAt (e : Engine) (document : DocumentId) (text : List Char) (b : Bindings) (n : Node) :
    List Diagnostic :=
  (e.rulesFor n.kind).flatMap fun r =>
    (e.overrideSeverity r (r.check ⟨n, document, text, b, r.severity⟩)).filterMap
      (withDirective text r)

/-- The diagnostics of a document, by line, column and code. -/
def analyzeDocument (e : Engine) (d : Document) (b : Bindings) : List Diagnostic :=
  let text := d.chars
  stableSort Diagnostic.orderInDocument
    (d.rootNode.descendants.flatMap (e.diagnosticsAt d.id text b))

/-! ## All documents -/

/-- The documents that are looked at, with what is known about them. -/
def subjects (e : Engine) (s : Snapshot) (host : Host) : List (Document × Bindings) :=
  (s.documents.filter fun d => !e.config.isExcluded d.id.spelling).filterMap fun d =>
    (host.bindings? d.id).map fun b => (d, b)

/-- The diagnostics of all documents that are not excluded and are known to the host. -/
def analyze (e : Engine) (s : Snapshot) (host : Host) : Report :=
  let subjects := e.subjects s host
  ⟨stableSort Diagnostic.order (subjects.flatMap fun (d, b) => e.analyzeDocument d b),
    subjects.length⟩

def analyzeWorkspace (e : Engine) (w : Workspace) : Report := e.analyze w.snapshot w.host

end Engine

end SharpLint
