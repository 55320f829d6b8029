import SharpLint.Grammar.Statement

/-!
# Grammar of declarations

Types, their members, and namespaces.
-/

namespace SharpLint.Grammar

open Production

/-! ## Parts -/

/-- Type parameters, if they stand here. -/
def typeParameters (g : Inner) : Production := whenever (atKind .lt) (typeArguments g)

/-- Base types, each with or without arguments. -/
def baseList (g : Inner) : Production :=
  whenever (atKind .colon) <| node .baseList
    (seq [bump, separated (seq [type g, whenever (atKind .openParen) (argumentList g)])])

/-- The body starts here, or the declaration ends. -/
def atBody (s : List Lexeme) : Bool :=
  atKind .openBrace s || atKind .semicolon s || atKind .arrow s || atEnd s

/-- `where` clauses, kept as plain tokens. -/
def constraints : Production := whenever (atWord "where") (many (fun s => !atBody s) bump)

def arrowClause (g : Inner) : Production :=
  node .arrowExpressionClause (seq [bump, expression g])

/-- A block, an arrow clause or nothing, as the body of a function. -/
def methodBody (g : Inner) : Production :=
  look fun s =>
    if atKind .openBrace s then block g
    else if atKind .arrow s then seq [arrowClause g, semicolon]
    else expect .semicolon "method body or `;`"

/-- Accessors of a property or an indexer. -/
def accessorList (g : Inner) : Production :=
  let accessor := node .accessorDeclaration
    (seq [attributes, modifiers, expect .identifier "`get`, `set` or `init`", methodBody g])
  node .accessorList
    (seq [bump, many (before .closeBrace) accessor, expect .closeBrace "`\x7d`"])

def typeBody (g : Inner) : Production :=
  seq [expect .openBrace "`\x7b`", many (before .closeBrace) g.member,
    expect .closeBrace "`\x7d`", eat .semicolon]

/-! ## Types

Each production takes the attributes and modifiers that stand before it. -/

/-- A class, struct or interface, at its keyword. -/
def typeDeclaration (g : Inner) (kind : NodeKind) (header : List Tree) : Production :=
  node kind
    (seq [keep header, bump, expect .identifier "type name", typeParameters g, baseList g,
      constraints, typeBody g])

def recordDeclaration (g : Inner) (header : List Tree) : Production :=
  look fun s =>
    let kind := if kindAhead 1 s == .keyword .kwStruct then NodeKind.recordStructDeclaration
      else .recordDeclaration
    node kind
      (seq [keep header, bump,
        whenever (fun s => atKeyword .kwStruct s || atKeyword .kwClass s) bump,
        expect .identifier "record name", typeParameters g,
        whenever (atKind .openParen) (parameterList g), baseList g, constraints,
        look fun s => if atKind .semicolon s then bump else typeBody g])

/-- An enumeration, at its keyword. -/
def enumDeclaration (g : Inner) (header : List Tree) : Production :=
  let member := node .enumMemberDeclaration
    (seq [attributes, expect .identifier "enum member", whenever (atKind .eq) (equalsValue g)])
  node .enumDeclaration
    (seq [keep header, bump, expect .identifier "enum name", baseList g,
      expect .openBrace "`\x7b`", items (before .closeBrace) member,
      expect .closeBrace "`\x7d`", eat .semicolon])

/-- A delegate, at its keyword. -/
def delegateDeclaration (g : Inner) (header : List Tree) : Production :=
  node .delegateDeclaration
    (seq [keep header, bump, type g, expect .identifier "delegate name", typeParameters g,
      parameterList g, constraints, semicolon])

/-! ## Members -/

/-- A constructor, at its name. -/
def constructorDeclaration (g : Inner) (header : List Tree) : Production :=
  let target := look fun s =>
    if atKeyword .kwThis s || atKeyword .kwBase s then bump else fail "`base` or `this`"
  node .constructorDeclaration
    (seq [keep header, bump, parameterList g,
      whenever (atKind .colon) (seq [bump, target, argumentList g]), methodBody g])

/-- A conversion operator, at `implicit` or `explicit`. -/
def conversionDeclaration (g : Inner) (header : List Tree) : Production :=
  node .conversionOperatorDeclaration
    (seq [keep header, bump, bump, type g, parameterList g, methodBody g])

/-- A member that starts with a type: which one it is shows behind the type. -/
def typedMember (g : Inner) (header : List Tree) : Production :=
  extend (type g) fun ty => look fun s =>
    let start := seq [keep header, keep ty, bump]
    if atKeyword .kwThis s && kindAhead 1 s == .openBracket then
      node .indexerDeclaration
        (seq [start, bracketedParameterList g, look fun s =>
          if atKind .arrow s then seq [arrowClause g, semicolon] else accessorList g])
    else if atWord "operator" s then
      node .operatorDeclaration
        (seq [start, many (before .openParen) bump, parameterList g, methodBody g])
    else if !atKind .identifier s then fail "member name"
    else
      match kindAhead 1 s with
      | .openParen | .lt =>
        node .methodDeclaration
          (seq [start, typeParameters g, parameterList g, constraints, methodBody g])
      | .openBrace =>
        node .propertyDeclaration
          (seq [start, accessorList g,
            whenever (atKind .eq) (seq [equalsValue g, semicolon])])
      | .arrow => node .propertyDeclaration (seq [start, arrowClause g, semicolon])
      | _ =>
        node .fieldDeclaration
          (seq [keep header, node .variableDeclaration (seq [keep ty, declarators g]), semicolon])

/-- The word `record` with a name, `class` or `struct` after it. -/
def atRecord (s : List Lexeme) : Bool :=
  atWord "record" s &&
    (kindAhead 1 s == .identifier || kindAhead 1 s == .keyword .kwClass
      || kindAhead 1 s == .keyword .kwStruct)

def atConversion (s : List Lexeme) : Bool :=
  (atWord "implicit" s || atWord "explicit" s) && (s.drop 1).head?.any (·.token.text == "operator")

def member (g : Inner) : Production :=
  extend (seq [attributes, modifiers]) fun header => look fun s =>
    match kindAhead 0 s with
    | .keyword .kwClass => typeDeclaration g .classDeclaration header
    | .keyword .kwStruct => typeDeclaration g .structDeclaration header
    | .keyword .kwInterface => typeDeclaration g .interfaceDeclaration header
    | .keyword .kwEnum => enumDeclaration g header
    | .keyword .kwDelegate => delegateDeclaration g header
    | _ =>
      if atRecord s then recordDeclaration g header
      else if atKind .identifier s && kindAhead 1 s == .openParen then
        constructorDeclaration g header
      else if atConversion s then conversionDeclaration g header
      else typedMember g header

/-! ## Namespaces -/

def usingDirective (g : Inner) : Production :=
  node .usingDirective
    (seq [bump, eat (.keyword .kwStatic), qualifiedName,
      whenever (atKind .eq) (seq [bump, type g]), semicolon])

/-- A namespace, at its keyword: in braces, or up to the end of the file. -/
def namespaceDeclaration (g : Inner) : Production :=
  extend (seq [bump, qualifiedName]) fun name => look fun s =>
    if atKind .semicolon s then
      node .fileScopedNamespaceDeclaration (seq [keep name, bump, g.members .endOfFile])
    else
      node .namespaceDeclaration
        (seq [keep name, expect .openBrace "`\x7b` or `;`", g.members .closeBrace,
          expect .closeBrace "`\x7d`", eat .semicolon])

/-- A `using` directive, a namespace, or a declaration. -/
def namespaceMember (g : Inner) : Production :=
  look fun s =>
    if atKeyword .kwUsing s then usingDirective g
    else if atKeyword .kwNamespace s then namespaceDeclaration g
    else member g

/-- Members of a namespace up to a lexeme of the kind `stop`. -/
def members (g : Inner) (stop : TokenKind) : Production := many (before stop) (namespaceMember g)

end SharpLint.Grammar
