import SharpLint.Binding.Symbol
import SharpLint.Tree.View

/-!
# What the rules ask of symbols and types
-/

namespace SharpLint

/-- Precision of a floating-point type. -/
inductive FloatKind where
  | single | double
  deriving DecidableEq, Inhabited

namespace FloatKind

def name : FloatKind → String
  | .single => "Single"
  | .double => "Double"

def ofSpecial? : SpecialType → Option FloatKind
  | .single => some .single
  | .double => some .double
  | _ => none

end FloatKind

/-- A field, local, property or parameter with a floating-point type. -/
def SymbolInfo.isFloating (s : SymbolInfo) : Bool :=
  (s.kind == .field || s.kind == .local || s.kind == .property || s.kind == .parameter)
    && s.type.any (·.special.isFloatingPoint)

namespace TypeInfo

/-- Precision of the type before conversion. -/
def floatKind? (t : TypeInfo) : Option FloatKind := t.type.bind fun r => FloatKind.ofSpecial? r.special

/-- The type before conversion is a floating-point type. -/
def isFloating (t : TypeInfo) : Bool := t.floatKind?.isSome

/-- Text, before or after conversion. -/
def isString (t : TypeInfo) : Bool :=
  t.type.any (·.special == .string) || t.converted.any (·.special == .string)

end TypeInfo

def Keyword.isChar (k : Keyword) : Bool := k == .kwChar

/-- An array of a built-in type other than `char`. -/
def Node.isPrimitiveArray (n : Node) : Bool :=
  n.kind == .arrayType && n.arrayKeyword?.any (!·.isChar)

namespace Bindings

/-- The node stands for a floating-point variable. -/
def isFloatingSymbol (b : Bindings) (n : Node) : Bool := (b.symbol? n).any SymbolInfo.isFloating

def isFloatingExpression (b : Bindings) (n : Node) : Bool := (b.typeOf? n).any TypeInfo.isFloating

/-- The node is a sum with text for its type. -/
def isConcatenation (b : Bindings) (n : Node) : Bool :=
  n.kind == .addExpression && (b.typeOf? n).any TypeInfo.isString

end Bindings

end SharpLint
