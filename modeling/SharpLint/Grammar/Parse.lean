import SharpLint.Grammar.Declaration

/-!
# From text to tree

`parse` reads the lexemes of a text as a compilation unit. The grammar refers to itself; a
reference uses the next lower `Inner.level`. Every reference comes after a lexeme was read, so that
a level above the number of lexemes is never used up.
-/

namespace SharpLint

/-- The productions whose references nest at most `n` deep. -/
def Inner.level : Nat → Inner
  | 0 => .nothing
  | n + 1 =>
    let g := level n
    { type := Grammar.type g
      expression := Grammar.expression g
      unary := Grammar.unary g
      coalesce := Grammar.coalesce g
      binary := Grammar.binary g
      pattern := Grammar.pattern g
      negatedPattern := Grammar.negatedPattern g
      initializer := Grammar.initializer g
      block := Grammar.block g
      statement := Grammar.statement g
      member := Grammar.member g
      members := Grammar.members g }

/-- A source file: members of namespaces, then the end of the text. -/
def compilationUnit (s : List Lexeme) : Except FaultAt Tree :=
  match Production.seq [(Inner.level (s.length + 1)).members .endOfFile, Production.bump] s with
  | .error e => .error e
  | .ok (ts, _) => .ok (.node .compilationUnit ts)

def parse (text : String) : Except ParseError Tree :=
  let chars := text.toList
  match Lexeme.ofChars chars with
  | .error e => .error (.locate chars e)
  | .ok lexemes =>
    match compilationUnit lexemes with
    | .error e => .error (.locate chars e)
    | .ok tree => .ok tree

end SharpLint
