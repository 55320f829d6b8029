import SharpLint.Binding.Floating
import SharpLint.Rule.Basic

/-!
# Formatting of floating-point values

`value.ToString(...)` of a floating-point value, and floating-point values that are turned into text
without a call: as operands of a concatenation, and in the holes of interpolated strings. A chain of
concatenations is looked at from its outermost node only, so that every operand is found once.
-/

namespace SharpLint.Rule.Formatting

/-- Wording for a call of `ToString`. -/
def explicitDescriptor : Descriptor where
  code := "NG1001"
  title := "Floating-point formatting"
  format := "'\x7b0\x7d' formats a floating-point value with the runtime's ToString"
  description := "Use the numeric formatting module to produce portable output"

/-- Wording for concatenations and holes. -/
def implicitDescriptor : Descriptor where
  code := "NG1006"
  title := "Implicit floating-point formatting"
  format := "'\x7b0\x7d' is converted to a string implicitly"
  description := "Concatenation and interpolation call the runtime's ToString"

def isCallee (n : Node) : Bool :=
  n.parent?.any fun p =>
    p.kind == .invocationExpression && (p.childNode? 0).any (·.index == n.index)

/-- The node is a called `ToString` of a floating-point value. -/
def callsToString (b : Bindings) (n : Node) : Bool :=
  n.memberAccess?.any fun m =>
    m.nameText == "ToString" && isCallee n && m.receiver.any b.isFloatingExpression

/-- The operands of a chain of concatenations, at most `fuel` nodes down. -/
def operandsUpTo (b : Bindings) : Nat → Node → List Node
  | 0, n => [n]
  | fuel + 1, n => if b.isConcatenation n then n.childNodes.flatMap (operandsUpTo b fuel) else [n]

/-- The operands of a chain of concatenations. A sum of numbers is an operand. -/
def operands (b : Bindings) (n : Node) : List Node := operandsUpTo b n.tree.height n

/-- The node is a concatenation, and not an operand of another one. -/
def isOutermost (b : Bindings) (n : Node) : Bool :=
  b.isConcatenation n && !n.parent?.any b.isConcatenation

/-- The floating-point operands of the chain of concatenations that starts at a node. -/
def floatingOperands (b : Bindings) (n : Node) : List Node :=
  if isOutermost b n then
    ((operands b n).map Node.unparenthesize).filter b.isFloatingExpression
  else []

/-- The floating-point expressions in the holes of an interpolated string. -/
def floatingHoles (b : Bindings) (n : Node) : List Node :=
  ((n.holes?.getD []).filterMap fun h => h.hole?.bind Node.HoleParts.expression).filter
    b.isFloatingExpression

/-- What is turned into text at a node. -/
def check (b : Bindings) (n : Node) : List Finding :=
  match n.kind with
  | .simpleMemberAccessExpression =>
    if callsToString b n then [.aboutText explicitDescriptor n] else []
  | .addExpression => (floatingOperands b n).map (.aboutText implicitDescriptor)
  | .interpolatedStringExpression => (floatingHoles b n).map (.aboutText implicitDescriptor)
  | _ => []

def name : String := "floating-point-formatting"

def rule : Rule where
  name := name
  description := "Flags float/double values formatted with the runtime's ToString"
  descriptors := [explicitDescriptor, implicitDescriptor]
  severity := .warning
  kinds := [.simpleMemberAccessExpression, .addExpression, .interpolatedStringExpression]
  check := reporting name check

end SharpLint.Rule.Formatting
