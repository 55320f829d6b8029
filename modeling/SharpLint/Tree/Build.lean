import SharpLint.Text.Search
import SharpLint.Tree.Basic

/-!
# Building trees

Trees for new source text. They carry no trivia but the space behind a comma; whoever replaces a
node moves its trivia onto the new one.
-/

namespace SharpLint.Build

def token (kind : TokenKind) : Tree := .token (.ofKind kind)

def identifierName (name : String) : Tree := .node .identifierName [.token (.bare .identifier name)]

def memberAccess (receiver : Tree) (name : String) : Tree :=
  .node .simpleMemberAccessExpression [receiver, token .dot, identifierName name]

/-- The parts of a dotted path, empty ones left out. -/
def segments (path : String) : List String :=
  ((splitAtEach '.' path.toList).filter (!·.isEmpty)).map String.ofList

/-- `A.B.C` as a chain of member accesses; `none` when the path has no part. -/
def dotted? (path : String) : Option Tree :=
  match segments path with
  | [] => none
  | first :: others => some (others.foldl memberAccess (identifierName first))

def argument (value : Tree) : Tree := .node .argument [value]

/-- Trees with a comma and a space between them. -/
def commaSeparated : List Tree → List Tree
  | [] => []
  | [t] => [t]
  | t :: ts => t :: .token { Token.ofKind .comma with trailing := [.space] } :: commaSeparated ts

/-- `(a, b)` -/
def argumentList (arguments : List Tree) : Tree :=
  .node .argumentList ([token .openParen] ++ commaSeparated arguments ++ [token .closeParen])

def call (callee arguments : Tree) : Tree := .node .invocationExpression [callee, arguments]

/-- A character inside a string literal. -/
def escape (c : Char) : List Char :=
  if c = '"' then ['\\', '"']
  else if c = '\\' then ['\\', '\\']
  else if c = '\n' then ['\\', 'n']
  else if c = '\r' then ['\\', 'r']
  else if c = '\t' then ['\\', 't']
  else [c]

def literalText (value : String) : String :=
  String.ofList (['"'] ++ value.toList.flatMap escape ++ ['"'])

def stringLiteral (value : String) : Tree :=
  .node .literalExpression [.token (.bare .stringLiteral (literalText value))]

def modifierList (modifiers : List Token) : Tree := .node .modifierList (modifiers.map .token)

end SharpLint.Build
