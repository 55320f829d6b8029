import SharpLint.Lexeme.Attach
import SharpLint.Tree.Basic

/-!
# Productions

A production reads lexemes and builds the trees made of them. The productions of the grammar are
put together from the ones here. The end of the text is never read: `bump` at the end yields the
token that stands there and stays.

A loop takes the number of remaining lexemes as its fuel, which is enough because every round
reads at least one.
-/

namespace SharpLint

/-- Reads lexemes and builds trees, or fails with the fault at a lexeme. -/
abbrev Production := List Lexeme → Except FaultAt (List Tree × List Lexeme)

/-! ## Looking ahead -/

def kindAhead (n : Nat) (s : List Lexeme) : TokenKind := (s[n]?.map (·.token.kind)).getD .endOfFile

/-- The next lexeme is of the given kind. -/
def atKind (kind : TokenKind) (s : List Lexeme) : Bool := kindAhead 0 s == kind

/-- The next lexeme is the given keyword. -/
def atKeyword (k : Keyword) (s : List Lexeme) : Bool := atKind (.keyword k) s

def atWord (word : String) (s : List Lexeme) : Bool :=
  atKind .identifier s && s.head?.any (·.token.text == word)

/-- No lexeme is left but the end of the text. -/
def atEnd (s : List Lexeme) : Bool := atKind .endOfFile s

/-- Neither at a lexeme of the given kind nor at the end. -/
def before (kind : TokenKind) (s : List Lexeme) : Bool := !atKind kind s && !atEnd s

namespace Production

/-! ## Single steps -/

/-- Reads nothing and yields trees built before. -/
def keep (ts : List Tree) : Production := fun s => .ok (ts, s)

/-- Reads and builds nothing. -/
def empty : Production := keep []

/-- The fault that `what` was expected at the next lexeme. -/
def faultAt (what : String) (s : List Lexeme) : FaultAt :=
  match s with
  | [] => ⟨.expected what "end of file", 0⟩
  | l :: _ =>
    let found := if l.token.kind = .endOfFile then "end of file" else l.token.text
    ⟨.expected what found, l.offset⟩

/-- Fails because `what` was expected. -/
def fail (what : String) : Production := fun s => .error (faultAt what s)

/-- Reads the next lexeme, whatever it is. The end of the text is yielded but not read, so that
another `bump` yields it again. -/
def bump : Production
  | [] => .ok ([], [])
  | l :: s => .ok ([.token l.token], if l.token.kind = .endOfFile then l :: s else s)

/-! ## Combining -/

def look (choose : List Lexeme → Production) : Production := fun s => choose s s

def extend (p : Production) (next : List Tree → Production) : Production := fun s =>
  match p s with
  | .error e => .error e
  | .ok (ts, s) => next ts s

def andThen (p q : Production) : Production := fun s =>
  match p s with
  | .error e => .error e
  | .ok (ts, s) =>
    match q s with
    | .error e => .error e
    | .ok (us, s) => .ok (ts ++ us, s)

/-- One production after the other. -/
def seq : List Production → Production
  | [] => empty
  | p :: ps => andThen p (seq ps)

/-- The trees of `p` as children of one node. -/
def node (kind : NodeKind) (p : Production) : Production := fun s =>
  match p s with
  | .error e => .error e
  | .ok (ts, s) => .ok ([.node kind ts], s)

/-- `p` where `test` holds, else nothing. -/
def whenever (test : List Lexeme → Bool) (p : Production) : Production :=
  look fun s => if test s then p else empty

/-- A lexeme of the given kind, called `what` in the fault. -/
def expect (kind : TokenKind) (what : String) : Production :=
  look fun s => if atKind kind s then bump else fail what

/-- A lexeme of the given kind if it comes next. -/
def eat (kind : TokenKind) : Production := whenever (atKind kind) bump

/-! ## Loops -/

/-- At most `n` rounds of `many`. -/
def manyUpTo (test : List Lexeme → Bool) (p : Production) : Nat → Production
  | 0 => empty
  | n + 1 => whenever test (andThen p (manyUpTo test p n))

/-- `p` as long as `test` holds. -/
def many (test : List Lexeme → Bool) (p : Production) : Production :=
  look fun s => manyUpTo test p s.length

/-- One or more items with commas between them. -/
def separated (item : Production) : Production :=
  seq [item, many (atKind .comma) (seq [bump, item])]

/-- At most `n` rounds of `items`. -/
def itemsUpTo (test : List Lexeme → Bool) (item : Production) : Nat → Production
  | 0 => empty
  | n + 1 => whenever test (seq [item, whenever (atKind .comma) (seq [bump, itemsUpTo test item n])])

/-- Items with commas between them, as long as `test` holds; a comma may end the list. -/
def items (test : List Lexeme → Bool) (item : Production) : Production :=
  look fun s => itemsUpTo test item s.length

/-- What may follow an operand, and the kind of node that the two make. -/
abbrev Suffix := List Lexeme → Option (NodeKind × Production)

/-- `left` and what follows it as one node, if anything follows. -/
def suffixed (suffix : Suffix) (left : List Tree) : Production :=
  look fun s =>
    match suffix s with
    | none => keep left
    | some (kind, tail) => node kind (seq [keep left, tail])

/-- At most `n` rounds of `chain`. -/
def chainUpTo (suffix : Suffix) : Nat → List Tree → Production
  | 0, left => keep left
  | n + 1, left =>
    look fun s =>
      match suffix s with
      | none => keep left
      | some (kind, tail) => extend (node kind (seq [keep left, tail])) (chainUpTo suffix n)

/-- `p` and everything that follows it, each suffix around all that stands before it. -/
def chain (p : Production) (suffix : Suffix) : Production :=
  extend p fun left => look fun s => chainUpTo suffix s.length left

end Production

/-! ## Recursion -/

/-- The productions that others refer to from inside brackets, operands and bodies. Each such
reference comes after a lexeme has been read. -/
structure Inner where
  type : Production
  expression : Production
  unary : Production
  coalesce : Production
  /-- Operators that bind at least as tightly as the given precedence. -/
  binary : Nat → Production
  pattern : Production
  negatedPattern : Production
  initializer : Production
  block : Production
  statement : Production
  member : Production
  /-- Members of a namespace up to a lexeme of the given kind. -/
  members : TokenKind → Production

def Inner.nothing : Inner :=
  let p := Production.fail "source text"
  ⟨p, p, p, p, fun _ => p, p, p, p, p, p, p, fun _ => p⟩

end SharpLint
