import SharpLint.Change.Set

/-!
# Types and symbols

What is known about names and expressions. A rule asks for it through `Bindings`, which answer for
one document, and a fix through `Host`, which answers for all of them.
-/

namespace SharpLint

/-- The types that the language treats by name; `other` stands for all the rest. -/
inductive SpecialType where
  | other | object | void | boolean | char | sbyte | byte | int16 | uint16 | int32 | uint32
  | int64 | uint64 | decimal | single | double | string
  deriving DecidableEq, Inhabited

namespace SpecialType

def all : List SpecialType :=
  [.other, .object, .void, .boolean, .char, .sbyte, .byte, .int16, .uint16, .int32, .uint32,
   .int64, .uint64, .decimal, .single, .double, .string]

def name : SpecialType → String
  | .other => "None"
  | .object => "Object"
  | .void => "Void"
  | .boolean => "Boolean"
  | .char => "Char"
  | .sbyte => "SByte"
  | .byte => "Byte"
  | .int16 => "Int16"
  | .uint16 => "UInt16"
  | .int32 => "Int32"
  | .uint32 => "UInt32"
  | .int64 => "Int64"
  | .uint64 => "UInt64"
  | .decimal => "Decimal"
  | .single => "Single"
  | .double => "Double"
  | .string => "String"

def isFloatingPoint : SpecialType → Bool
  | .single | .double => true
  | _ => false

/-- Numbers of any sort. -/
def isNumeric : SpecialType → Bool
  | .sbyte | .byte | .int16 | .uint16 | .int32 | .uint32 | .int64 | .uint64 | .decimal | .single
  | .double => true
  | _ => false

end SpecialType

/-- A type by name. -/
structure TypeRef where
  special : SpecialType
  name : String
  deriving DecidableEq, Inhabited

/-- A type that is not special. -/
def TypeRef.named (name : String) : TypeRef := ⟨.other, name⟩

/-- What a name stands for. -/
inductive SymbolKind where
  | field | «local» | parameter | property | method | type | typeParameter | «namespace»
  deriving DecidableEq, Inhabited

namespace SymbolKind

def all : List SymbolKind :=
  [.field, .local, .parameter, .property, .method, .type, .typeParameter, .namespace]

def name : SymbolKind → String
  | .field => "Field"
  | .local => "Local"
  | .parameter => "Parameter"
  | .property => "Property"
  | .method => "Method"
  | .type => "Type"
  | .typeParameter => "TypeParameter"
  | .namespace => "Namespace"

end SymbolKind

/-- A symbol, with its type where it is known. -/
structure SymbolInfo where
  kind : SymbolKind
  name : String
  type : Option TypeRef
  deriving DecidableEq

/-- Type of an expression, and the type it is converted to. -/
structure TypeInfo where
  type : Option TypeRef
  converted : Option TypeRef
  deriving DecidableEq

/-- A type without conversion. -/
def TypeInfo.of (t : TypeRef) : TypeInfo := ⟨some t, some t⟩

/-- What is known about the nodes of one document. Declared types are named in full. -/
structure Bindings where
  symbol? : Node → Option SymbolInfo
  typeOf? : Node → Option TypeInfo
  declaredSymbol? : Node → Option String

/-- What is known about all documents. -/
structure Host where
  bindings? : DocumentId → Option Bindings
  declarationsOf : String → List DeclarationRef

end SharpLint
