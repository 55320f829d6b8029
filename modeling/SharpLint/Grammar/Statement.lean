import SharpLint.Grammar.Expression

/-!
# Grammar of statements
-/

namespace SharpLint.Grammar

open Production

def semicolon : Production := expect .semicolon "`;`"

/-- Names with initial values, behind a type. -/
def declarators (g : Inner) : Production :=
  separated (node .variableDeclarator
    (seq [expect .identifier "variable name", whenever (atKind .eq) (equalsValue g)]))

def variableDeclaration (g : Inner) : Production :=
  node .variableDeclaration (seq [type g, declarators g])

/-- A type and a name, with `=`, `;` or `,` after them. -/
def looksLikeVariables (g : Inner) (s : List Lexeme) : Bool :=
  match afterType? g s with
  | none => false
  | some rest =>
    atKind .identifier rest &&
      (kindAhead 1 rest == .eq || kindAhead 1 rest == .semicolon || kindAhead 1 rest == .comma)

def block (g : Inner) : Production :=
  node .block
    (seq [expect .openBrace "`\x7b`", many (before .closeBrace) g.statement,
      expect .closeBrace "`\x7d`"])

def condition (g : Inner) : Production :=
  seq [expect .openParen "`(`", expression g, expect .closeParen "`)`"]

def ifStatement (g : Inner) : Production :=
  node .ifStatement
    (seq [bump, condition g, g.statement,
      whenever (atKeyword .kwElse) (node .elseClause (seq [bump, g.statement]))])

/-- `for`, at the keyword. -/
def forStatement (g : Inner) : Production :=
  let start := look fun s =>
    if atKind .semicolon s then empty
    else if looksLikeVariables g s then variableDeclaration g
    else separated (expression g)
  node .forStatement
    (seq [bump, expect .openParen "`(`", start, semicolon,
      whenever (fun s => !atKind .semicolon s) (expression g), semicolon,
      whenever (fun s => !atKind .closeParen s) (separated (expression g)),
      expect .closeParen "`)`", g.statement])

def foreachStatement (g : Inner) : Production :=
  node .forEachStatement
    (seq [bump, expect .openParen "`(`", type g, expect .identifier "loop variable",
      expect (.keyword .kwIn) "`in`", expression g, expect .closeParen "`)`", g.statement])

def atSwitchLabel (s : List Lexeme) : Bool :=
  atKeyword .kwCase s || (atKeyword .kwDefault s && kindAhead 1 s == .colon)

def switchLabel (g : Inner) : Production :=
  look fun s =>
    if atKeyword .kwDefault s then node .defaultSwitchLabel (seq [bump, bump])
    else
      node .caseSwitchLabel (seq [bump, pattern g, whenClause g, expect .colon "`:`"])

/-- Labels and the statements behind them. -/
def switchSection (g : Inner) : Production :=
  look fun s =>
    if atSwitchLabel s then
      node .switchSection
        (seq [many atSwitchLabel (switchLabel g),
          many (fun s => before .closeBrace s && !atSwitchLabel s) g.statement])
    else fail "`case` or `default`"

def switchStatement (g : Inner) : Production :=
  node .switchStatement
    (seq [bump, condition g, expect .openBrace "`\x7b`",
      many (before .closeBrace) (switchSection g), expect .closeBrace "`\x7d`"])

def catchClause (g : Inner) : Production :=
  let declaration := node .catchDeclaration
    (seq [bump, type g, eat .identifier, expect .closeParen "`)`"])
  node .catchClause
    (seq [bump, whenever (atKind .openParen) declaration, whenClause g, block g])

/-- `try`, at the keyword; it has a `catch` or a `finally`. -/
def tryStatement (g : Inner) : Production :=
  let handlers := look fun s =>
    if atKeyword .kwCatch s || atKeyword .kwFinally s then
      seq [many (atKeyword .kwCatch) (catchClause g),
        whenever (atKeyword .kwFinally) (node .finallyClause (seq [bump, block g]))]
    else fail "`catch` or `finally`"
  node .tryStatement (seq [bump, block g, handlers])

/-- `using`, at the keyword: a resource with a body, or a declaration. -/
def usingStatement (g : Inner) : Production :=
  let resource := look fun s => if looksLikeVariables g s then variableDeclaration g else expression g
  look fun s =>
    if kindAhead 1 s == .openParen then
      node .usingStatement
        (seq [bump, bump, resource, expect .closeParen "`)`", g.statement])
    else node .localDeclarationStatement (seq [bump, variableDeclaration g, semicolon])

/-- `yield` with `return` or `break` after it. -/
def atYield (s : List Lexeme) : Bool :=
  atWord "yield" s &&
    (kindAhead 1 s == .keyword .kwReturn || kindAhead 1 s == .keyword .kwBreak)

def yieldStatement (g : Inner) : Production :=
  look fun s =>
    if kindAhead 1 s == .keyword .kwReturn then
      node .yieldReturnStatement (seq [bump, bump, expression g, semicolon])
    else node .yieldBreakStatement (seq [bump, bump, semicolon])

/-- A declaration of variables, an expression, or `yield`. -/
def plainStatement (g : Inner) : Production :=
  look fun s =>
    if atYield s then yieldStatement g
    else if looksLikeVariables g s then
      node .localDeclarationStatement (seq [variableDeclaration g, semicolon])
    else node .expressionStatement (seq [expression g, semicolon])

def statement (g : Inner) : Production :=
  let value := whenever (fun s => !atKind .semicolon s) (expression g)
  look fun s =>
    match kindAhead 0 s with
    | .openBrace => block g
    | .semicolon => node .emptyStatement bump
    | .keyword .kwReturn => node .returnStatement (seq [bump, value, semicolon])
    | .keyword .kwThrow => node .throwStatement (seq [bump, value, semicolon])
    | .keyword .kwIf => ifStatement g
    | .keyword .kwWhile => node .whileStatement (seq [bump, condition g, g.statement])
    | .keyword .kwFor => forStatement g
    | .keyword .kwForeach => foreachStatement g
    | .keyword .kwBreak => node .breakStatement (seq [bump, semicolon])
    | .keyword .kwContinue => node .continueStatement (seq [bump, semicolon])
    | .keyword .kwDo =>
      node .doStatement
        (seq [bump, g.statement, expect (.keyword .kwWhile) "`while`", condition g, semicolon])
    | .keyword .kwLock => node .lockStatement (seq [bump, condition g, g.statement])
    | .keyword .kwSwitch => switchStatement g
    | .keyword .kwTry => tryStatement g
    | .keyword .kwUsing => usingStatement g
    | .keyword .kwConst =>
      node .localDeclarationStatement
        (seq [node .modifierList bump, variableDeclaration g, semicolon])
    | _ => plainStatement g

end SharpLint.Grammar
