import SharpLint.Grammar.Type

/-!
# Grammar of expressions

From the inside out: primary expressions, suffixes, unary operators and casts, `switch`
expressions, binary operators by precedence, `??`, the conditional, lambdas and assignments.
Binary operators group to the left; `??` and assignments group to the right.
-/

namespace SharpLint

/-- How tightly a binary operator binds; assignments and `??` are treated apart. -/
def NodeKind.precedence? : NodeKind → Option Nat
  | .logicalOrExpression => some 1
  | .logicalAndExpression => some 2
  | .bitwiseOrExpression => some 3
  | .exclusiveOrExpression => some 4
  | .bitwiseAndExpression => some 5
  | .equalsExpression | .notEqualsExpression => some 6
  | .lessThanExpression | .greaterThanExpression | .lessThanOrEqualExpression
  | .greaterThanOrEqualExpression => some 7
  | .leftShiftExpression | .rightShiftExpression => some 8
  | .addExpression | .subtractExpression => some 9
  | .multiplyExpression | .divideExpression | .moduloExpression => some 10
  | _ => none

namespace Grammar

open Production

/-- Precedence of the comparisons, and of `is` and `as`. -/
def relational : Nat := 7

def shift : Nat := 8

/-! ## Attributes and parameters -/

/-- Lexemes up to the bracket that closes an attribute list, `depth` brackets inside it. -/
def insideBrackets (depth : Nat) : Production
  | [] => fail "`]`" []
  | l :: s =>
    let go (depth : Nat) : Except FaultAt (List Tree × List Lexeme) :=
      match insideBrackets depth s with
      | .error e => .error e
      | .ok (ts, rest) => .ok (.token l.token :: ts, rest)
    match l.token.kind with
    | .endOfFile => fail "`]`" (l :: s)
    | .closeBracket => if depth = 0 then .ok ([], l :: s) else go (depth - 1)
    | .openBracket => go (depth + 1)
    | _ => go depth

/-- Any number of `[...]` lists. -/
def attributes : Production :=
  many (atKind .openBracket) (node .attributeList (seq [bump, insideBrackets 0, bump]))

/-- Modifiers of a declaration; the list is there even when it is empty. -/
def modifiers : Production :=
  node .modifierList (many (fun s => (kindAhead 0 s).keyword?.any Keyword.isModifier) bump)

/-- Words that may stand before a parameter's type. -/
def atParameterModifier (s : List Lexeme) : Bool :=
  match (kindAhead 0 s).keyword? with
  | some .kwRef | some .kwOut | some .kwParams | some .kwIn | some .kwThis => true
  | _ => false

/-- Elements in braces, at the opening one. -/
def elements (g : Inner) : Production :=
  let element := look fun s => if atKind .openBrace s then g.initializer else g.expression
  seq [expect .openBrace "`\x7b`", items (fun s => !atKind .closeBrace s) element,
    expect .closeBrace "`\x7d`"]

def initializer (g : Inner) : Production := node .arrayCreationExpression (elements g)

def equalsValue (g : Inner) : Production :=
  node .equalsValueClause
    (seq [bump, look fun s => if atKind .openBrace s then initializer g else g.expression])

/-- A parameter with its type. -/
def parameter (g : Inner) : Production :=
  node .parameter
    (seq [attributes, node .modifierList (many atParameterModifier bump), type g,
      expect .identifier "parameter name", whenever (atKind .eq) (equalsValue g)])

/-- Items up to a closing bracket, none allowed. -/
def listUpTo (close : TokenKind) (what : String) (item : Production) : Production :=
  seq [whenever (fun s => !atKind close s) (separated item), expect close what]

/-- `(T a, U b)` -/
def parameterList (g : Inner) : Production :=
  node .parameterList
    (seq [expect .openParen "`(`", listUpTo .closeParen "`)`" (parameter g)])

/-- `[T a, U b]`, at the opening bracket; at least one parameter. -/
def bracketedParameterList (g : Inner) : Production :=
  node .bracketedParameterList
    (seq [bump, separated (parameter g), expect .closeBracket "`]`"])

/-- Parameters of a lambda, with or without types, at the opening parenthesis. -/
def lambdaParameterList (g : Inner) : Production :=
  let item := look fun s =>
    if atKind .identifier s && (kindAhead 1 s == .comma || kindAhead 1 s == .closeParen) then
      node .parameter bump
    else parameter g
  node .parameterList (seq [bump, listUpTo .closeParen "`)`" item])

/-! ## Arguments -/

/-- A type and a name stand here, with a comma or `close` after them. -/
def declaresVariable (g : Inner) (close : TokenKind) (s : List Lexeme) : Bool :=
  match afterType? g s with
  | none => false
  | some rest =>
    atKind .identifier rest && (kindAhead 1 rest == close || kindAhead 1 rest == .comma)

/-- Words before an argument that is passed by reference. -/
def atByReference (s : List Lexeme) : Bool :=
  atKeyword .kwRef s || atKeyword .kwOut s || atKeyword .kwIn s

/-- One argument: a name with a colon, a word for passing by reference, and the value. Only behind
such a word can it declare a variable. -/
def argument (g : Inner) (close : TokenKind) : Production :=
  let byReference := seq [bump, look fun s =>
    if declaresVariable g close s then node .declarationExpression (seq [type g, bump])
    else g.expression]
  node .argument
    (seq [whenever (fun s => atKind .identifier s && kindAhead 1 s == .colon)
        (node .nameColon (seq [bump, bump])),
      look fun s => if atByReference s then byReference else g.expression])

/-- `(a, b)` -/
def argumentList (g : Inner) : Production :=
  node .argumentList
    (seq [expect .openParen "`(`", listUpTo .closeParen "`)`" (argument g .closeParen)])

/-- `[a, b]`, at the opening bracket. -/
def bracketedArgumentList (g : Inner) : Production :=
  node .bracketedArgumentList
    (seq [bump, listUpTo .closeBracket "`]`" (argument g .closeBracket)])

/-! ## Primary expressions -/

/-- Lengths between the brackets of an array creation. -/
def lengths (g : Inner) : Production :=
  let part := seq [look fun s => if atKind .comma s then bump else g.expression,
    look fun s => if atEnd s then fail "`]`" else empty]
  node .arrayRankSpecifier
    (seq [bump, many (fun s => !atKind .closeBracket s) part, bump])

/-- An object or array creation, at `new`. -/
def creation (g : Inner) : Production :=
  let withElements := whenever (atKind .openBrace) (elements g)
  extend bump fun new => look fun s =>
    if atKind .openParen s then
      node .implicitObjectCreationExpression (seq [keep new, argumentList g, withElements])
    else if atKind .openBrace s then node .objectCreationExpression (seq [keep new, elements g])
    else if atKind .openBracket s then
      node .arrayCreationExpression
        (seq [keep new, node .arrayRankSpecifier (seq [bump, expect .closeBracket "`]`"]),
          elements g])
    else
      extend (if atPredefinedType s then predefinedType else namedType g) fun element =>
        look fun s =>
          if atKind .openBracket s then
            node .arrayCreationExpression
              (seq [keep new,
                node .arrayType (seq [keep element, many (atKind .openBracket) (lengths g)]),
                withElements])
          else
            node .objectCreationExpression
              (seq [keep new, keep element, whenever (atKind .openParen) (argumentList g),
                withElements])

/-- A hole of an interpolated string, at its opening brace. -/
def interpolation (g : Inner) : Production :=
  node .interpolation
    (seq [bump, g.expression,
      whenever (atKind .comma) (node .interpolationAlignmentClause (seq [bump, g.expression])),
      whenever (atKind .colon)
        (node .interpolationFormatClause (seq [bump, eat .interpolatedFormatText])),
      expect .closeBrace "`\x7d`"])

def interpolatedString (g : Inner) : Production :=
  let part := look fun s =>
    if atKind .interpolatedStringText s then node .interpolatedStringText bump
    else interpolation g
  node .interpolatedStringExpression
    (seq [bump,
      many (fun s => atKind .interpolatedStringText s || atKind .openBrace s) part,
      expect .interpolatedStringEnd "interpolated string content"])

/-- `keyword(Type)`, at the keyword. -/
def typeOperand (g : Inner) (kind : NodeKind) : Production :=
  node kind (seq [bump, expect .openParen "`(`", type g, expect .closeParen "`)`"])

/-- An expression without operators. -/
def primary (g : Inner) : Production :=
  look fun s =>
    match kindAhead 0 s with
    | .numericLiteral | .stringLiteral | .charLiteral => node .literalExpression bump
    | .interpolatedStringStart => interpolatedString g
    | .identifier => node .identifierName bump
    | .openParen =>
      node .parenthesizedExpression (seq [bump, g.expression, expect .closeParen "`)`"])
    | .keyword .kwTrue | .keyword .kwFalse | .keyword .kwNull => node .literalExpression bump
    | .keyword .kwThis => node .thisExpression bump
    | .keyword .kwNew => creation g
    | .keyword .kwBase => node .baseExpression bump
    | .keyword .kwDefault =>
      if kindAhead 1 s == .openParen then typeOperand g .defaultExpression
      else node .literalExpression bump
    | .keyword .kwTypeof => typeOperand g .typeOfExpression
    | .keyword .kwThrow => node .throwExpression (seq [bump, g.expression])
    | .keyword k => if k.isPredefinedType then predefinedType else fail "expression"
    | _ => fail "expression"

/-- Member access, call, indexing, `++`, `--` and the null-forgiving `!`. -/
def postfixSuffix (g : Inner) : Suffix := fun s =>
  let member := seq [bump, node .identifierName (expect .identifier "member name")]
  match kindAhead 0 s with
  | .dot => some (.simpleMemberAccessExpression, member)
  | .questionDot => some (.conditionalAccessExpression, member)
  | .openParen => some (.invocationExpression, argumentList g)
  | .openBracket => some (.elementAccessExpression, bracketedArgumentList g)
  | .plusPlus | .minusMinus | .bang => some (.postfixUnaryExpression, bump)
  | _ => none

/-! ## Operators -/

/-- A parenthesized type with an operand after it. A built-in type is enough; behind another type
the next lexeme has to start an operand. -/
def looksLikeCast (g : Inner) (s : List Lexeme) : Bool :=
  let inside := s.drop 1
  match afterType? g inside with
  | none => false
  | some rest =>
    atKind .closeParen rest && (atPredefinedType inside ||
      match kindAhead 1 rest with
      | .identifier | .numericLiteral | .stringLiteral | .openParen => true
      | .keyword .kwThis | .keyword .kwNew => true
      | _ => false)

/-- An operand with its unary operators and casts. -/
def unary (g : Inner) : Production :=
  look fun s =>
    match kindAhead 0 s with
    | .bang | .tilde | .minus | .plus | .plusPlus | .minusMinus =>
      node .prefixUnaryExpression (seq [bump, g.unary])
    | .openParen =>
      if looksLikeCast g s then
        node .castExpression (seq [bump, type g, expect .closeParen "`)`", g.unary])
      else chain (primary g) (postfixSuffix g)
    | _ => chain (primary g) (postfixSuffix g)

/-- `when condition`, if it stands here. -/
def whenClause (g : Inner) : Production :=
  whenever (atWord "when") (node .whenClause (seq [bump, g.expression]))

/-- `operand switch { pattern => value, … }` -/
def switchSuffix (g : Inner) : Suffix := fun s =>
  let arm := node .switchExpressionArm
    (seq [g.pattern, whenClause g, expect .arrow "`=>`", g.expression])
  if atKeyword .kwSwitch s && kindAhead 1 s == .openBrace then
    some (.switchExpression,
      seq [bump, bump, items (before .closeBrace) arm, expect .closeBrace "`\x7d`"])
  else none

/-- Two `>` with nothing between them. -/
def atRightShift : List Lexeme → Bool
  | a :: b :: _ => a.token.kind == .gt && b.token.kind == .gt && a.offset + 1 == b.offset
  | _ => false

/-- The sign of an operator and its right operand, if the operator binds at least as tightly as
`least`. -/
def operatorSuffix? (g : Inner) (least : Nat) (kind : NodeKind) (sign : Production) :
    Option (NodeKind × Production) :=
  match kind.precedence? with
  | none => none
  | some p => if p < least then none else some (kind, seq [sign, g.binary (p + 1)])

/-- An operator that binds at least as tightly as `least`, and its right operand. -/
def binarySuffix (g : Inner) (least : Nat) : Suffix := fun s =>
  if atKeyword .kwAs s then
    if relational < least then none else some (.asExpression, seq [bump, type g])
  else if atKeyword .kwIs s then
    if relational < least then none else some (.isPatternExpression, seq [bump, g.pattern])
  else if atRightShift s then operatorSuffix? g least .rightShiftExpression (seq [bump, bump])
  else (NodeKind.ofOperator? (kindAhead 0 s)).bind fun kind => operatorSuffix? g least kind bump

/-- Operators that bind at least as tightly as `least`, grouped to the left. -/
def binary (g : Inner) (least : Nat) : Production :=
  chain (chain (unary g) (switchSuffix g)) (binarySuffix g least)

/-- `a ?? b`, grouped to the right. -/
def coalesce (g : Inner) : Production :=
  extend (binary g 1) <|
    suffixed fun s =>
      if atKind .questionQuestion s then some (.coalesceExpression, seq [bump, g.coalesce]) else none

/-- `a ? b : c` -/
def conditional (g : Inner) : Production :=
  extend (coalesce g) <|
    suffixed fun s =>
      if atKind .question s then
        some (.conditionalExpression,
          seq [bump, g.expression, expect .colon "`:`", g.expression])
      else none

/-! ## Lambdas and assignments -/

/-- The parenthesis that closes the one open `depth` levels up has `=>` after it. -/
def closesBeforeArrow (depth : Nat) : List Lexeme → Bool
  | [] => false
  | l :: s =>
    match l.token.kind with
    | .openParen => closesBeforeArrow (depth + 1) s
    | .closeParen =>
      if depth ≤ 1 then atKind .arrow s else closesBeforeArrow (depth - 1) s
    | .endOfFile => false
    | _ => closesBeforeArrow depth s

def lambdaBody (g : Inner) : Production :=
  look fun s => if atKind .openBrace s then g.block else g.expression

def expression (g : Inner) : Production :=
  look fun s =>
    if atKind .identifier s && kindAhead 1 s == .arrow then
      node .simpleLambdaExpression (seq [node .parameter bump, bump, lambdaBody g])
    else if atKind .openParen s && closesBeforeArrow 0 s then
      node .parenthesizedLambdaExpression
        (seq [lambdaParameterList g, expect .arrow "`=>`", lambdaBody g])
    else
      extend (conditional g) <|
        suffixed fun s =>
          match NodeKind.ofOperator? (kindAhead 0 s) with
          | some kind => if kind.isAssignment then some (kind, seq [bump, g.expression]) else none
          | none => none

/-! ## Patterns -/

/-- Words that go on with a pattern instead of naming a variable. -/
def atPatternWord (s : List Lexeme) : Bool := atWord "and" s || atWord "or" s || atWord "when" s

def looksLikeDesignation (g : Inner) (s : List Lexeme) : Bool :=
  match afterType? g s with
  | none => false
  | some rest => atKind .identifier rest && !atPatternWord rest

/-- A type that could not be read as a constant: its text, trivia included, has `<` or `[`. -/
def looksLikeCompositeType (g : Inner) (s : List Lexeme) : Bool :=
  match type g s with
  | .error _ => false
  | .ok (ts, _) => ts.any fun t => t.fullChars.any fun c => c == '<' || c == '['

/-- A pattern without `and` and `or`. -/
def negatedPattern (g : Inner) : Production :=
  look fun s =>
    if atWord "not" s then node .notPattern (seq [bump, g.negatedPattern])
    else if atKind .lt s || atKind .gt s || atKind .ltEq s || atKind .gtEq s then
      node .relationalPattern (seq [bump, binary g shift])
    else if looksLikeDesignation g s then node .declarationPattern (seq [type g, bump])
    else if looksLikeCompositeType g s then node .typePattern (type g)
    else node .constantPattern (binary g shift)

/-- A pattern: `and` binds more tightly than `or`. -/
def pattern (g : Inner) : Production :=
  let conjunction := chain (negatedPattern g) fun s =>
    if atWord "and" s then some (.andPattern, seq [bump, negatedPattern g]) else none
  chain conjunction fun s =>
    if atWord "or" s then some (.orPattern, seq [bump, conjunction]) else none

end Grammar

end SharpLint
