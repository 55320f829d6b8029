import SharpLint.Binding.Table

/-!
# Names and expressions of a document

Names are bound by their text alone. Parameters and locals of a document hide the members of all
documents, and the latest declaration of a name counts. `Scope.typeOf?` infers the type of an
expression from the types of its parts.

Both look-ups go down the tree; the height of the node is fuel enough.
-/

namespace SharpLint

/-- The names bound in a document, the latest first, and the symbols of all documents. -/
structure Scope where
  names : List SymbolInfo
  table : SymbolTable
  deriving DecidableEq

namespace Scope

/-! ## Symbols -/

/-- The node is the name behind the dot of a member access. -/
def isMemberName (n : Node) : Bool :=
  n.index != 0 && n.parent?.any fun p =>
    p.kind == .simpleMemberAccessExpression || p.kind == .conditionalAccessExpression

/-- The symbol of a name that stands alone. -/
def nameSymbol? (scope : Scope) (name : String) : Option SymbolInfo :=
  ((scope.names.find? (·.name == name)).or (scope.table.member? name)).or
    ((scope.table.typeNamed? name).map fun _ => ⟨.type, name, some (.named name)⟩)

/-- The symbol of a node, at most `fuel` nodes down. -/
def symbolUpTo (scope : Scope) : Nat → Node → Option SymbolInfo
  | 0, _ => none
  | fuel + 1, n =>
    match n.kind with
    | .identifierName =>
      if isMemberName n then scope.table.member? n.text else scope.nameSymbol? n.text
    | .simpleMemberAccessExpression | .conditionalAccessExpression =>
      (n.childNode? 1).bind (symbolUpTo scope fuel)
    | .parenthesizedExpression => symbolUpTo scope fuel n.unparenthesize
    | _ => none

def symbol? (scope : Scope) (n : Node) : Option SymbolInfo := scope.symbolUpTo (n.tree.height + 1) n

/-! ## Types of expressions -/

/-- The type of the value that a symbol stands for. -/
def valueType? (s : SymbolInfo) : Option TypeRef :=
  match s.kind with
  | .type | .method | .namespace => none
  | _ => s.type

/-- The type of a call: text for `ToString`, else the return type of the method. -/
def callType? (scope : Scope) (n : Node) : Option TypeRef :=
  match n.childNode? 0 with
  | none => none
  | some callee =>
    if callee.memberAccess?.any (·.nameText == "ToString") then some (.ofSpecial .string)
    else
      match scope.symbol? callee with
      | some s => if s.kind = .method then s.type else none
      | none => none

def isString (t : Option TypeRef) : Bool := t.any (·.special == .string)

/-- The type of a sum, difference, product, quotient or remainder. -/
def arithmeticType? (kind : NodeKind) (left right : Option TypeRef) : Option TypeRef :=
  if kind = .addExpression && (isString left || isString right) then some (.ofSpecial .string)
  else
    match left, right with
    | some l, some r => l.promote? r
    | _, _ => none

def bitwiseType? (left right : Option TypeRef) : Option TypeRef :=
  match left, right with
  | some l, some r =>
    if l.special = .boolean ∧ r.special = .boolean then some l else l.promote? r
  | _, _ => none

/-- The type of an expression, at most `fuel` nodes down. -/
def typeUpTo (scope : Scope) : Nat → Node → Option TypeRef
  | 0, _ => none
  | fuel + 1, n =>
    let operand (i : Nat) : Option TypeRef := (n.childNode? i).bind (typeUpTo scope fuel)
    match n.kind with
    | .literalExpression => literalType? n
    | .interpolatedStringExpression => some (.ofSpecial .string)
    | .identifierName | .simpleMemberAccessExpression | .conditionalAccessExpression =>
      (scope.symbol? n).bind valueType?
    | .invocationExpression => scope.callType? n
    | .parenthesizedExpression => typeUpTo scope fuel n.unparenthesize
    | .castExpression | .objectCreationExpression | .arrayCreationExpression | .asExpression
    | .defaultExpression => SymbolTable.typeDeclaredAt? n
    | .conditionalExpression => operand 1
    | .elementAccessExpression => (operand 0).bind TypeRef.element?
    | .thisExpression => (qualifiedName? n).map fun name => .named (simpleName name)
    | .prefixUnaryExpression =>
      match n.tree.firstToken? with
      | none => none
      | some t => if t.kind = .bang then some (.ofSpecial .boolean) else operand 0
    | .postfixUnaryExpression => operand 0
    | .logicalAndExpression | .logicalOrExpression | .isPatternExpression =>
      some (.ofSpecial .boolean)
    | .coalesceExpression => ((operand 0).map TypeRef.stripNullable).or (operand 1)
    | .switchExpression =>
      (n.childOfKind? .switchExpressionArm).bind fun arm =>
        arm.childNodes.getLast?.bind (typeUpTo scope fuel)
    | .bitwiseAndExpression | .bitwiseOrExpression | .exclusiveOrExpression =>
      bitwiseType? (operand 0) (operand 1)
    | .leftShiftExpression | .rightShiftExpression =>
      (operand 0).bind fun l => l.promote? (.ofSpecial .int32)
    | .addExpression | .subtractExpression | .multiplyExpression | .divideExpression
    | .moduloExpression =>
      if (n.childNode? 0).isNone || (n.childNode? 1).isNone then none
      else arithmeticType? n.kind (operand 0) (operand 1)
    | kind =>
      if kind.isComparison then some (.ofSpecial .boolean)
      else if kind.isAssignment then operand 0
      else none

/-- The type of an expression. -/
def typeOf? (scope : Scope) (n : Node) : Option TypeRef := scope.typeUpTo (n.tree.height + 1) n

/-! ## Declarations -/

def bind (scope : Scope) (kind : SymbolKind) (name : Option TokenAt) (type : Option TypeRef) : Scope :=
  match name with
  | none => scope
  | some t => { scope with names := ⟨kind, t.token.text, type⟩ :: scope.names }

/-- The special type whose `TryParse` a declaration is passed to. -/
def tryParseTarget? (n : Node) : Option TypeRef :=
  match n.ancestorsAndSelf.find? (·.kind == .invocationExpression) with
  | none => none
  | some call =>
    match (call.childNode? 0).bind Node.memberAccess? with
    | none => none
    | some callee =>
      if callee.nameText = "TryParse" then
        match callee.receiver with
        | none => none
        | some receiver =>
          let t := TypeRef.ofName receiver.text
          if t.special = .other then none else some t
      else none

/-- With the variables of a declaration bound, one after the other, so that each can use those
before it. -/
def bindVariables (scope : Scope) (declaration : Node) : Scope :=
  let declared := SymbolTable.typeDeclaredAt? declaration
  (declaration.childNodes.filter (·.kind == .variableDeclarator)).foldl
    (fun scope d =>
      let initial := (d.childOfKind? .equalsValueClause).bind fun clause =>
        (clause.childNode? 0).bind scope.typeOf?
      scope.bind .local d.declaredName? (declared.or initial))
    scope

def bindNode (scope : Scope) (n : Node) : Scope :=
  let declared := SymbolTable.typeDeclaredAt? n
  match n.kind with
  | .parameter => scope.bind .parameter n.declaredName? declared
  | .forEachStatement =>
    let element := (n.childNode? 1).bind fun c => (scope.typeOf? c).bind TypeRef.element?
    scope.bind .local n.declaredName? (declared.or element)
  | .declarationExpression => scope.bind .local n.declaredName? (declared.or (tryParseTarget? n))
  | .declarationPattern | .catchDeclaration => scope.bind .local n.declaredName? declared
  | .variableDeclaration =>
    if n.parent?.any (·.kind != .fieldDeclaration) then scope.bindVariables n else scope
  | _ => scope

def ofDocument (table : SymbolTable) (d : Document) : Scope :=
  d.rootNode.descendants.foldl bindNode ⟨[], table⟩

/-- The full name of the type that a node declares. -/
def declaredSymbol? (n : Node) : Option String :=
  if n.kind.isTypeDeclaration then qualifiedName? n else none

/-- What the scope knows, as rules ask for it. -/
def bindings (scope : Scope) : Bindings :=
  ⟨scope.symbol?, fun n => (scope.typeOf? n).map TypeInfo.of, declaredSymbol?⟩

end Scope

end SharpLint
