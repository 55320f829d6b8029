import SharpLint.Binding.Floating
import SharpLint.Rule.Basic

/-!
# Comparisons, products and quotients

Comparisons with an operator or with `Equals` of a variable whose type is `float` or `double`, and
every product and quotient, whatever the types of its operands.
-/

namespace SharpLint.Rule

namespace Equality

/-- Wording. -/
def descriptor : Descriptor where
  code := "NG1000"
  title := "Floating-point comparison"
  format := "'\x7b0\x7d' compares floating-point values exactly"
  description := "Comparisons of float and double values may differ from the reference platform"

/-- The node compares a floating-point variable by an operator. -/
def comparesFloating (b : Bindings) (n : Node) : Bool :=
  n.binary?.any fun parts =>
    parts.left.any b.isFloatingSymbol || parts.right.any b.isFloatingSymbol

/-- The node is `Equals` of a floating-point variable, as part of a call. -/
def callsEquals (b : Bindings) (n : Node) : Bool :=
  n.parent?.any (·.kind == .invocationExpression)
    && n.memberAccess?.any fun m => m.nameText == "Equals" && m.receiver.any b.isFloatingSymbol

/-- The comparison at a node. -/
def check (b : Bindings) (n : Node) : List Finding :=
  if n.kind = .simpleMemberAccessExpression then
    if callsEquals b n then [.aboutText descriptor n] else []
  else if comparesFloating b n then [.aboutText descriptor n] else []

def name : String := "floating-point-equality"

def rule : Rule where
  name := name
  description := "Flags ==, !=, <, >, <=, >= and Equals on float/double values"
  descriptors := [descriptor]
  severity := .warning
  kinds := [.equalsExpression, .notEqualsExpression, .lessThanExpression, .greaterThanExpression,
    .lessThanOrEqualExpression, .greaterThanOrEqualExpression, .simpleMemberAccessExpression]
  check := reporting name check

end Equality

namespace Arithmetic

/-- Wording. -/
def descriptor : Descriptor where
  code := "NG1002"
  title := "Floating-point arithmetic"
  format := "'\x7b0\x7d' may lose precision"
  description := "Multiplication and division results may differ from the reference platform"

/-- The product or quotient at a node. -/
def check (_ : Bindings) (n : Node) : List Finding := [.aboutText descriptor n]

def name : String := "floating-point-arithmetic"

def rule : Rule where
  name := name
  description := "Flags *, /, *= and /= expressions"
  descriptors := [descriptor]
  severity := .warning
  kinds := [.multiplyExpression, .divideExpression, .multiplyAssignmentExpression,
    .divideAssignmentExpression]
  check := reporting name check

end Arithmetic

end SharpLint.Rule
