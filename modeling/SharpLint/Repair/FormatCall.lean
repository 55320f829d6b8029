import SharpLint.Binding.Floating
import SharpLint.Change.Fix
import SharpLint.Rule.Formatting
import SharpLint.Tree.Build

/-!
# Fix: format through a module

    x.ToString(c)        Module.Single.ToString(x, c)
    "a" + x              "a" + Module.Single.ToString(x)
    $"{x,5:F2}"          $"{Module.Single.ToString(x, "F2"),5}"

The outer trivia of what is replaced move to the new call. In a call, the arguments keep their
trivia, so that a line break behind the parenthesis comes to stand behind the new argument. In a
hole, the alignment stays and the format becomes the second argument.
-/

namespace SharpLint.Repair.FormatCall

/-! ## Trees -/

/-- The expression without outer trivia, comments included. -/
def bare (n : Node) : Tree := (n.tree.withLeading []).withTrailing []

/-- Trivia behind the comma that follows the new first argument: what stood behind the parenthesis,
and a space in front of it unless it starts with a blank. -/
def separator (afterOpen : List Trivia) : List Trivia :=
  match afterOpen.head?.map Trivia.kind with
  | some .whitespace | some .endOfLine => afterOpen
  | _ => .space :: afterOpen

def prependArgument (list : Node) (first : Tree) : Tree :=
  let afterOpen := match list.children.head? with
    | some (.token t) => t.trailing
    | _ => []
  let comma :=
    if list.childNodes.any (·.kind == .argument) then
      [Tree.token { Token.ofKind .comma with trailing := separator afterOpen }]
    else []
  .node .argumentList ([Build.token .openParen, first] ++ comma ++ list.children.drop 1)

/-- The call that replaces `receiver.ToString(arguments)`. -/
def qualifiedCall? (callee : String) (n : Node) : Option Tree := do
  let call ← n.call?
  let receiver ← ((← call.callee).memberAccess?).bind Node.MemberParts.receiver
  let list ← call.argumentList
  let path ← Build.dotted? callee
  pure ((Build.call path (prependArgument list (Build.argument (bare receiver)))).withTriviaFrom n.tree)

/-- The call of `callee` that replaces an expression, with more arguments behind the expression. -/
def wrap? (callee : String) (n : Node) (more : List Tree) : Option Tree := do
  let path ← Build.dotted? callee
  let arguments := (bare n :: more).map Build.argument
  pure ((Build.call path (Build.argumentList arguments)).withTriviaFrom n.tree)

/-- The hole that replaces a hole, its expression wrapped and its format moved into the call. -/
def qualifiedHole? (callee : String) (n : Node) : Option Tree := do
  let parts ← n.hole?
  let expression ← parts.expression
  let format := (parts.formatText.map Build.stringLiteral).toList
  let wrapped ← wrap? callee expression format
  let children := n.children.set expression.index wrapped
  pure (.node .interpolation
    ((parts.format.map fun clause => children.eraseIdx clause.index).getD children))

/-! ## The fix -/

/-- What the fix replaces. -/
inductive Shape where
  /-- A call of `ToString`. -/
  | call
  /-- An operand of a concatenation. -/
  | operand
  /-- A hole of an interpolated string, braces included. -/
  | hole
  deriving DecidableEq

/-- A site that the fix changes. -/
structure Site where
  document : DocumentId
  target : Span
  kind : NodeKind
  shape : Shape
  /-- Dotted path of the method to call. -/
  callee : String
  deriving DecidableEq

namespace Site

/-- The tree that takes the place of a node. -/
def replacement? (site : Site) (n : Node) : Option Tree :=
  match site.shape with
  | .call => qualifiedCall? site.callee n
  | .operand => wrap? site.callee n []
  | .hole => qualifiedHole? site.callee n

/-- The site is not in the snapshot, or has not the shape of one. -/
def missing (site : Site) : FixError := .apply (.missingTarget site.document site.target site.kind)

/-- The edit of a site. -/
def changes (site : Site) (s : Snapshot) : Except FixError ChangeSet :=
  match s.find? site.document with
  | none => .error (.unknownDocument site.document)
  | some document =>
    match document.rootNode.findNode? site.target site.kind with
    | none => .error site.missing
    | some n =>
      match site.replacement? n with
      | none => .error site.missing
      | some replacement => .ok (.single site.document (.ofNode n replacement))

end Site

/-- The node to replace, how, and the expression whose type chooses the method. -/
structure Choice where
  target : Node
  shape : Shape
  typed : Node

/-- The choice for a call that was reported at its callee. -/
def chooseCall? (n : Node) : Option Choice := do
  let receiver ← n.memberAccess?.bind Node.MemberParts.receiver
  let call ← n.parent?.filter (·.kind == .invocationExpression)
  pure ⟨call, .call, receiver⟩

/-- The choice for an expression that was reported itself. -/
def chooseExpression (n : Node) : Choice :=
  let isExpressionOf (h : Node) : Bool :=
    (h.hole?.bind Node.HoleParts.expression).any (·.index == n.index)
  match n.parent?.filter isExpressionOf with
  | some hole => ⟨hole, .hole, n⟩
  | none => ⟨n, .operand, n⟩

/-- Fixes with this key do the same at different sites. -/
def key : String := "UseFormatModuleToString"

def propose? (module : String) (s : Snapshot) (host : Host) (d : Diagnostic) : Option Fix := do
  let document := d.location.document
  let node ← s.reportedNode? d
  let bindings ← host.bindings? document
  let choice ← if d.code = Rule.Formatting.explicitDescriptor.code then chooseCall? node
    else pure (chooseExpression node)
  let kind ← (← bindings.typeOf? choice.typed).floatKind?
  let callee := module ++ "." ++ kind.name ++ ".ToString"
  let site : Site := ⟨document, choice.target.span, choice.target.kind, choice.shape, callee⟩
  pure ⟨"Use " ++ callee ++ "(...)", key, document, site.changes⟩

/-- The module with the formatting types, unless the configuration gives another. -/
def defaultModule : String := "J2N.Numerics"

def provider (module : String) : Provider where
  name := "FloatingPointFormattingFix"
  codes := [Rule.Formatting.explicitDescriptor.code, Rule.Formatting.implicitDescriptor.code]
  inBatches := true
  propose := fun s host d => (propose? module s host d).toList

end SharpLint.Repair.FormatCall
