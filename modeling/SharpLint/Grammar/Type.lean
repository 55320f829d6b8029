import SharpLint.Grammar.Production

/-!
# Grammar of names and types

Dotted names, and types: a built-in or named type with its arguments, then `?`, then any number of
array ranks.
-/

namespace SharpLint.Grammar

open Production

/-- The next lexeme is the keyword of a built-in type. -/
def atPredefinedType (s : List Lexeme) : Bool :=
  (kindAhead 0 s).keyword?.any Keyword.isPredefinedType

def atDotName (s : List Lexeme) : Bool := atKind .dot s && kindAhead 1 s == .identifier

/-- An opening bracket with a closing one or a comma after it. -/
def atRank (s : List Lexeme) : Bool :=
  atKind .openBracket s && (kindAhead 1 s == .closeBracket || kindAhead 1 s == .comma)

/-- `A` or `A.B.C`, flat. -/
def qualifiedName : Production :=
  extend (node .identifierName (expect .identifier "name")) <|
    suffixed fun s =>
      if atDotName s then
        some (.qualifiedName, many atDotName (seq [bump, node .identifierName bump]))
      else none

/-- `<A, B>`, at its opening bracket. -/
def typeArguments (g : Inner) : Production :=
  node .typeArgumentList (seq [bump, separated g.type, expect .gt "`>`"])

/-- An identifier with or without type arguments. -/
def simpleTypeName (g : Inner) : Production :=
  extend (expect .identifier "type name") fun name => look fun s =>
    if atKind .lt s then node .genericName (seq [keep name, typeArguments g])
    else node .identifierName (keep name)

/-- A dotted name with type arguments. -/
def namedType (g : Inner) : Production :=
  extend (simpleTypeName g) <|
    suffixed fun s =>
      if atDotName s then some (.qualifiedName, many atDotName (seq [bump, simpleTypeName g]))
      else none

/-- The keyword of a built-in type. -/
def predefinedType : Production := node .predefinedType bump

/-- `[]`, `[,]`, … -/
def rank : Production :=
  node .arrayRankSpecifier (seq [bump, many (atKind .comma) bump, expect .closeBracket "`]`"])

def type (g : Inner) : Production :=
  let head := look fun s =>
    if atPredefinedType s then predefinedType
    else if atKind .identifier s then namedType g
    else fail "type"
  let nullable : Suffix := fun s => if atKind .question s then some (.nullableType, bump) else none
  let array : Suffix := fun s => if atRank s then some (.arrayType, many atRank rank) else none
  extend (extend head (suffixed nullable)) (suffixed array)

/-- What comes after a type, if a type can be read here. -/
def afterType? (g : Inner) (s : List Lexeme) : Option (List Lexeme) :=
  match type g s with
  | .ok (_, rest) => some rest
  | .error _ => none

end SharpLint.Grammar
