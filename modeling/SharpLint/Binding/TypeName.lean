import SharpLint.Binding.Symbol
import SharpLint.Text.Search
import SharpLint.Tree.View

/-!
# Types by their names

`TypeRef.ofName` knows a special type by its keyword, by its library name, and by the library name
with `System.` in front. Types of literals, and the type that arithmetic on two types gives, follow.
-/

namespace SharpLint

/-- A special type with its keyword and its library name. -/
structure SpecialName where
  keyword : String
  library : String
  special : SpecialType

def specialNames : List SpecialName :=
  [⟨"object", "Object", .object⟩, ⟨"void", "Void", .void⟩, ⟨"bool", "Boolean", .boolean⟩,
   ⟨"char", "Char", .char⟩, ⟨"sbyte", "SByte", .sbyte⟩, ⟨"byte", "Byte", .byte⟩,
   ⟨"short", "Int16", .int16⟩, ⟨"ushort", "UInt16", .uint16⟩, ⟨"int", "Int32", .int32⟩,
   ⟨"uint", "UInt32", .uint32⟩, ⟨"long", "Int64", .int64⟩, ⟨"ulong", "UInt64", .uint64⟩,
   ⟨"decimal", "Decimal", .decimal⟩, ⟨"float", "Single", .single⟩, ⟨"double", "Double", .double⟩,
   ⟨"string", "String", .string⟩]

namespace TypeRef

def ofName (name : String) : TypeRef :=
  let library := (after? "System.".toList name.toList).elim name String.ofList
  match specialNames.find? fun n => n.keyword == name || n.library == library with
  | some n => ⟨n.special, n.keyword⟩
  | none => named name

/-- A special type under its keyword. -/
def ofSpecial (special : SpecialType) : TypeRef :=
  match specialNames.find? (·.special == special) with
  | some n => ⟨special, n.keyword⟩
  | none => ⟨special, ""⟩

def element? (t : TypeRef) : Option TypeRef :=
  (beforeEnd? "[]".toList t.name.toList).map fun name => ofName (String.ofList name)

/-- The type without a question mark. -/
def stripNullable (t : TypeRef) : TypeRef :=
  (beforeEnd? "?".toList t.name.toList).elim t fun name => ofName (String.ofList name)

/-- The type that a type node names; `var` names none. -/
def ofNode? (n : Node) : Option TypeRef :=
  let text := n.text
  if n.kind = .identifierName ∧ text = "var" then none else some (ofName text)

end TypeRef

/-! ## Arithmetic -/

/-- Rank of a number type; of two, the operation takes the higher. All that are widened to `int`
have rank zero. -/
def SpecialType.rank? : SpecialType → Option Nat
  | .sbyte | .byte | .int16 | .uint16 | .char | .int32 => some 0
  | .uint32 => some 1
  | .int64 => some 2
  | .uint64 => some 3
  | .decimal => some 4
  | .single => some 5
  | .double => some 6
  | _ => none

/-- Type of an arithmetic operation on two types. -/
def TypeRef.promote? (left right : TypeRef) : Option TypeRef :=
  match left.special.rank?, right.special.rank? with
  | some l, some r =>
    let wider := if r ≤ l then left.special else right.special
    if wider.rank? = some 0 then some (ofSpecial .int32) else some (ofSpecial wider)
  | _, _ => none

/-! ## Literals -/

/-- A letter without its case. -/
def lowerAscii (c : Char) : Char := if 'A' ≤ c ∧ c ≤ 'Z' then Char.ofNat (c.toNat + 32) else c

/-- Type of an integer literal by its suffix, in lower case. -/
def integerLiteralType (text : List Char) : SpecialType :=
  if ['u', 'l'].isSuffixOf text || ['l', 'u'].isSuffixOf text then .uint64
  else if ['l'].isSuffixOf text then .int64
  else if ['u'].isSuffixOf text then .uint32
  else .int32

def numericLiteralType (text : String) : SpecialType :=
  let lower := text.toList.map lowerAscii
  if ['0', 'x'].isPrefixOf lower then integerLiteralType lower
  else if ['f'].isSuffixOf lower then .single
  else if ['m'].isSuffixOf lower then .decimal
  else if ['d'].isSuffixOf lower || lower.contains '.' || lower.contains 'e' then .double
  else integerLiteralType lower

def literalType? (n : Node) : Option TypeRef :=
  match n.tree.firstToken? with
  | none => none
  | some t =>
    let special? : Option SpecialType := match t.kind with
      | .stringLiteral => some .string
      | .charLiteral => some .char
      | .keyword .kwTrue | .keyword .kwFalse => some .boolean
      | .numericLiteral => some (numericLiteralType t.text)
      | _ => none
    special?.map TypeRef.ofSpecial

end SharpLint
