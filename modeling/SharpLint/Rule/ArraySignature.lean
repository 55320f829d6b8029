import SharpLint.Binding.Floating
import SharpLint.Rule.Basic

/-!
# Arrays in the signatures of methods

Parameters and return values that are arrays of a built-in type. Arrays of characters, which text
interfaces exchange, and arrays of other types are left alone.
-/

namespace SharpLint.Rule

namespace ArrayParameter

/-- Wording. -/
def descriptor : Descriptor where
  code := "NG1003"
  title := "Array method parameter"
  format := "Parameter '\x7b0\x7d' is a primitive array"
  description := "Method parameters should not be arrays of primitive types other than char"

def check (_ : Bindings) (n : Node) : List Finding :=
  if n.kind = .methodDeclaration then
    (n.parameters.filter fun p => p.declaredType?.any Node.isPrimitiveArray).map
      (.aboutText descriptor)
  else []

def name : String := "array-method-parameter"

def rule : Rule where
  name := name
  description := "Flags method parameters typed as primitive arrays (except char[])"
  descriptors := [descriptor]
  severity := .warning
  kinds := [.methodDeclaration]
  check := reporting name check

end ArrayParameter

namespace ArrayReturn

/-- Wording. -/
def descriptor : Descriptor where
  code := "NG1004"
  title := "Array method return value"
  format := "Method returns the primitive array '\x7b0\x7d'"
  description := "Methods should not return arrays of primitive types other than char"

def check (_ : Bindings) (n : Node) : List Finding :=
  if n.kind = .methodDeclaration then
    ((n.declaredType?.filter Node.isPrimitiveArray).map (Finding.aboutText descriptor)).toList
  else []

def name : String := "array-method-return-value"

def rule : Rule where
  name := name
  description := "Flags methods returning primitive arrays (except char[])"
  descriptors := [descriptor]
  severity := .warning
  kinds := [.methodDeclaration]
  check := reporting name check

end ArrayReturn

end SharpLint.Rule
