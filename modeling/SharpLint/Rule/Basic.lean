import SharpLint.Binding.Symbol
import SharpLint.Diagnostic.Basic

/-!
# Rules

A rule looks at one node at a time, of the kinds it names, and reports diagnostics. Most rules give
findings: a finding names its wording and the node it is about; where that is, and how bad, comes from
the context.
-/

namespace SharpLint

/-- What a rule found. -/
structure Finding where
  descriptor : Descriptor
  node : Node
  args : List String
  deriving DecidableEq

/-- A finding about a node, with the node's text for its only argument. -/
def Finding.aboutText (d : Descriptor) (n : Node) : Finding := ⟨d, n, [n.text]⟩

/-- What a rule is shown: a node of a document, and the severity to report with. -/
structure NodeContext where
  node : Node
  document : DocumentId
  /-- Characters of the document, for lines and columns. -/
  text : List Char
  bindings : Bindings
  severity : Severity

def NodeContext.report (ctx : NodeContext) (rule : String) (f : Finding) : Diagnostic where
  code := f.descriptor.code
  rule := rule
  severity := ctx.severity
  location := .of ctx.document ctx.text f.node.span
  args := f.args
  message := f.descriptor.message f.args
  help := none

/-- A check of nodes. -/
structure Rule where
  name : String
  description : String
  descriptors : List Descriptor
  severity : Severity
  /-- A directive has to give a reason to silence the rule. -/
  needsReason : Bool := severity == .error
  kinds : List NodeKind
  check : NodeContext → List Diagnostic

namespace Rule

/-- The first of the rule's codes. -/
def code (r : Rule) : String := (r.descriptors.head?.map Descriptor.code).getD ""

def reports (r : Rule) (code : String) : Bool := r.descriptors.any (·.code == code)

/-- The rule with another severity, and the need of a reason that comes with it. -/
def withSeverity (r : Rule) (s : Severity) : Rule :=
  { r with severity := s, needsReason := s == .error }

/-- The check of a rule that reports findings, each at its node. -/
def reporting (name : String) (find : Bindings → Node → List Finding) (ctx : NodeContext) :
    List Diagnostic :=
  (find ctx.bindings ctx.node).map (ctx.report name)

end Rule

end SharpLint
