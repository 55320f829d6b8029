import SharpLint.Tree.Node

/-!
# Views of nodes by role

The parts of a construct under their names instead of by child number. A part is `none` where the
tree lacks it; a tree made by the parser has them all.
-/

namespace SharpLint.Node

/-! ## Expressions -/

/-- Operands and operator of a binary operation or assignment. -/
structure BinaryParts where
  left : Option Node
  operator : Option TokenAt
  right : Option Node

def binary? (n : Node) : Option BinaryParts :=
  if n.kind.isBinary then some ⟨n.childNode? 0, n.childTokens.head?, n.childNode? 1⟩ else none

/-- What a member is taken of, and its name. -/
structure MemberParts where
  receiver : Option Node
  name : Option Node

/-- Text of the name; empty when there is none. -/
def MemberParts.nameText (m : MemberParts) : String := (m.name.map Node.text).getD ""

def memberAccess? (n : Node) : Option MemberParts :=
  if n.kind = .simpleMemberAccessExpression then some ⟨n.childNode? 0, n.childNode? 1⟩ else none

/-- What is called, and with what. -/
structure CallParts where
  callee : Option Node
  argumentList : Option Node

def CallParts.arguments (c : CallParts) : List Node :=
  match c.argumentList with
  | none => []
  | some list => list.childNodes.filter (·.kind == .argument)

def call? (n : Node) : Option CallParts :=
  if n.kind = .invocationExpression then some ⟨n.childNode? 0, n.childOfKind? .argumentList⟩
  else none

def argumentValue? (n : Node) : Option Node := n.childNodes.getLast?

/-- The expression inside all parentheses around it; `fuel` bounds their number. -/
def unparenthesizeUpTo : Nat → Node → Node
  | 0, n => n
  | fuel + 1, n =>
    if n.kind = .parenthesizedExpression then
      match n.childNode? 0 with
      | some inner => unparenthesizeUpTo fuel inner
      | none => n
    else n

/-- The expression inside all parentheses around it. -/
def unparenthesize (n : Node) : Node := unparenthesizeUpTo n.tree.height n

/-! ## Interpolated strings -/

def holes? (n : Node) : Option (List Node) :=
  if n.kind = .interpolatedStringExpression then some (n.childNodes.filter (·.kind == .interpolation))
  else none

/-- Parts of a hole. -/
structure HoleParts where
  expression : Option Node
  alignment : Option Node
  format : Option Node

/-- Text behind the colon. -/
def HoleParts.formatText (h : HoleParts) : Option String :=
  h.format.bind fun clause => (clause.childToken? .interpolatedFormatText).map (·.token.text)

def hole? (n : Node) : Option HoleParts :=
  if n.kind = .interpolation then
    let isClause (m : Node) :=
      m.kind == .interpolationAlignmentClause || m.kind == .interpolationFormatClause
    some ⟨(n.childNode? 0).filter (!isClause ·), n.childOfKind? .interpolationAlignmentClause,
      n.childOfKind? .interpolationFormatClause⟩
  else none

/-! ## Declarations -/

def modifierTokens (n : Node) : List TokenAt :=
  match n.childOfKind? .modifierList with
  | none => []
  | some list => list.childTokens

/-- A modifier is among those of the declaration. -/
def hasModifier (n : Node) (k : Keyword) : Bool :=
  n.modifierTokens.any (·.token.kind == .keyword k)

/-- Name of a type declaration. In a record, the first identifier is the word `record`. -/
def typeName? (n : Node) : Option TokenAt :=
  let names := n.childTokens.filter (·.token.kind == .identifier)
  match n.kind with
  | .recordDeclaration | .recordStructDeclaration => names[1]?
  | _ => names[0]?

def namespaceName? (n : Node) : Option Node :=
  n.childNodes.find? fun c => c.kind == .identifierName || c.kind == .qualifiedName

/-- The first child that has the form of a type. -/
def declaredType? (n : Node) : Option Node := n.childNodes.find? (·.kind.isTypeForm)

def declaredName? (n : Node) : Option TokenAt := n.childToken? .identifier

def parameters (n : Node) : List Node :=
  match n.childOfKind? .parameterList with
  | none => []
  | some list => list.childNodes.filter (·.kind == .parameter)

/-- Keyword of the built-in type that an array holds. -/
def arrayKeyword? (n : Node) : Option Keyword :=
  match n.childNode? 0 with
  | none => none
  | some element =>
    if element.kind = .predefinedType then element.tree.firstToken?.bind (·.kind.keyword?) else none

end SharpLint.Node
