import SharpLint.Fault
import SharpLint.Lexeme.Extent
import SharpLint.Lexeme.Hole
import SharpLint.Tree.Token

/-!
# Pieces of a source text

A text is cut into pieces: trivia, and tokens with their byte offset. `pieces` reads pieces from a
cursor up to an offset. The code inside a hole of an interpolated string is read by the same
function, so it takes fuel; one unit for each character that remains is enough, because every
step moves the cursor forward.

The position can go back at the end of a hole: the tokens in it may run past the brace that closes
it, and reading goes on after that brace.
-/

namespace SharpLint

/-- A piece of trivia, or a token with the offset of its text. -/
inductive Piece where
  | trivia (t : Trivia)
  | token (kind : TokenKind) (text : String) (offset : Nat)
  deriving DecidableEq

/-- A place in a text: the characters before it, last one first, those after it, and its byte
offset. -/
structure Cursor where
  before : List Char
  rest : List Char
  offset : Nat

namespace Cursor

/-- The start of a text. -/
def ofChars (cs : List Char) : Cursor := ⟨[], cs, 0⟩

/-- `n` characters further. -/
def advance (c : Cursor) : Nat → Cursor
  | 0 => c
  | n + 1 =>
    match c.rest with
    | [] => c
    | d :: ds => advance ⟨d :: c.before, ds, c.offset + d.utf8Size⟩ n

/-- The next `n` characters. -/
def taken (c : Cursor) (n : Nat) : String := String.ofList (c.rest.take n)

/-- Only spaces and tabs stand before the cursor on its line. -/
def atLineStart (c : Cursor) : Bool :=
  match c.before.dropWhile Extent.isSpace with
  | [] => true
  | d :: _ => d == '\n'

/-- The next `n` characters as trivia. -/
def trivia (c : Cursor) (kind : TriviaKind) (n : Nat) : List Piece × Cursor :=
  ([.trivia ⟨kind, c.taken n⟩], c.advance n)

/-- The next `n` characters as a token. -/
def token (c : Cursor) (kind : TokenKind) (n : Nat) : List Piece × Cursor :=
  ([.token kind (c.taken n) c.offset], c.advance n)

/-- The next `n` characters as a token, if there are any. -/
def tokenIfAny (c : Cursor) (kind : TokenKind) (n : Nat) : List Piece × Cursor :=
  if n = 0 then ([], c) else c.token kind n

end Cursor

namespace Piece

/-- Pieces read, and where reading goes on. -/
abbrev Reading := Except FaultAt (List Piece × Cursor)

/-- Punctuation, longer spellings first. `?.` is not among them, since a digit after it makes the
question mark stand alone. -/
def punctuation : List TokenKind :=
  [.questionQuestionEq, .ltLtEq, .questionQuestion, .ltLt, .percentEq, .ampEq, .pipeEq, .caretEq,
   .arrow, .eqEq, .bangEq, .ltEq, .gtEq, .ampAmp, .pipePipe, .plusEq, .minusEq, .starEq, .slashEq,
   .plusPlus, .minusMinus, .openParen, .closeParen, .openBrace, .closeBrace, .openBracket,
   .closeBracket, .semicolon, .comma, .dot, .colon, .question, .plus, .minus, .star, .slash,
   .percent, .bang, .amp, .pipe, .caret, .tilde, .eq, .lt, .gt]

def spelling (kind : TokenKind) : List Char := (kind.fixedText?.getD "").toList

/-- The punctuation that the characters start with. -/
def punctuation? (cs : List Char) : Option TokenKind :=
  punctuation.find? fun kind => (spelling kind).isPrefixOf cs

/-- A name of `n` characters: a keyword or an identifier. -/
def word (c : Cursor) (n : Nat) : List Piece × Cursor :=
  c.token ((Keyword.ofText? (c.taken n)).elim .identifier .keyword) n

/-- A literal whose extent is known, or the fault that it is not closed. -/
def literal (c : Cursor) (kind : TokenKind) (what : Unclosed) : Option Nat → Reading
  | some n => .ok (c.token kind n)
  | none => .error ⟨.unterminated what, c.offset⟩

/-- The comma of a hole and the code behind it, up to the offset `stop`. `code stop c` reads pieces
from `c` up to the offset `stop`. -/
def alignment (code : Nat → Cursor → Reading) (stop : Nat) :
    Option Cursor → Except FaultAt (List Piece)
  | none => .ok []
  | some comma => do
    let (sign, behind) := comma.token .comma 1
    let (value, _) ← code stop behind
    pure (sign ++ value)

/-- The colon of a hole and the format text behind it, for a hole that starts at `c` and is closed
`close` characters further. -/
def format (c : Cursor) (close : Nat) : Option Nat → List Piece
  | none => []
  | some colon =>
    let (sign, behind) := (c.advance colon).token .colon 1
    sign ++ (behind.tokenIfAny .interpolatedFormatText (close - (colon + 1))).1

/-- The rest of a hole whose code starts at `c`, through its closing brace. -/
def hole (code : Nat → Cursor → Reading) (opener : Nat) (c : Cursor) : Reading :=
  match Hole.scan? c.rest with
  | none => .error ⟨.unterminated .interpolatedString, opener⟩
  | some h => do
    let close := c.advance h.close
    let comma := h.comma.map c.advance
    let colon := (h.colon.map c.advance).getD close
    let (expression, _) ← code (comma.getD colon).offset c
    let aligned ← alignment code colon.offset comma
    let (brace, next) := close.token .closeBrace 1
    pure (expression ++ aligned ++ format c h.close h.colon ++ brace, next)

/-- Text, holes and closing quote of an interpolated string, from inside it. -/
def interpolated (code : Nat → Cursor → Reading) (verbatim : Bool) (opener : Nat) :
    Nat → Cursor → Reading
  | 0, _ => .error ⟨.unterminated .interpolatedString, opener⟩
  | fuel + 1, c =>
    let (text, c) := c.tokenIfAny .interpolatedStringText (Extent.interpolatedText verbatim c.rest)
    match c.rest with
    | '"' :: _ =>
      let (quote, c) := c.token .interpolatedStringEnd 1
      .ok (text ++ quote, c)
    | '\x7b' :: _ => do
      let (brace, c) := c.token .openBrace 1
      let (inside, c) ← hole code opener c
      let (others, c) ← interpolated code verbatim opener fuel c
      pure (text ++ brace ++ inside ++ others, c)
    | _ => .error ⟨.unterminated .interpolatedString, opener⟩

def interpolatedString (code : Nat → Cursor → Reading) (verbatim : Bool) (n : Nat) (c : Cursor) :
    Reading := do
  let (start, inside) := c.token .interpolatedStringStart n
  let (parts, next) ← interpolated code verbatim c.offset (inside.rest.length + 1) inside
  pure (start ++ parts, next)

/-- The kind of a comment that starts with two slashes: three, and not four, make it
documentation. -/
def lineCommentKind : List Char → TriviaKind
  | '/' :: '/' :: '/' :: '/' :: _ => .singleLineComment
  | '/' :: '/' :: '/' :: _ => .docComment
  | _ => .singleLineComment

def punctuationAt (c : Cursor) (found : Char) : Reading :=
  match punctuation? c.rest with
  | some kind => .ok (c.token kind (spelling kind).length)
  | none => .error ⟨.unexpectedCharacter found, c.offset⟩

/-- A token that starts with none of the characters that `next` treats on their own. -/
def plain (c : Cursor) (ch : Char) (cs : List Char) : Reading :=
  if ch.isDigit then .ok (c.token .numericLiteral (Extent.number c.rest))
  else if ch == '.' && cs.head?.any Char.isDigit then
    .ok (c.token .numericLiteral (Extent.number c.rest))
  else if Extent.startsName ch then .ok (word c (Extent.run Extent.continuesName c.rest))
  else if ch == '@' && cs.head?.any Extent.startsName then
    .ok (word c (1 + Extent.run Extent.continuesName cs))
  else if ch == '?' && cs.head? == some '.' && !(cs.drop 1).head?.any Char.isDigit then
    .ok (c.token .questionDot 2)
  else punctuationAt c ch

/-- The next pieces: one, unless an interpolated string starts here. -/
def next (code : Nat → Cursor → Reading) (c : Cursor) : Reading :=
  match c.rest with
  | [] => .ok ([], c)
  | '\n' :: _ => .ok (c.trivia .endOfLine 1)
  | '\r' :: '\n' :: _ => .ok (c.trivia .endOfLine 2)
  | '\r' :: _ => .ok (c.trivia .whitespace 1)
  | '/' :: '/' :: _ => .ok (c.trivia (lineCommentKind c.rest) (Extent.run Extent.isInLine c.rest))
  | '/' :: '*' :: cs =>
    match Extent.before? ['*', '/'] cs with
    | some n => .ok (c.trivia .multiLineComment (n + 4))
    | none => .error ⟨.unterminated .comment, c.offset⟩
  | '$' :: '"' :: _ => interpolatedString code false 2 c
  | '$' :: '@' :: '"' :: _ => interpolatedString code true 3 c
  | '@' :: '$' :: '"' :: _ => interpolatedString code true 3 c
  | '@' :: '"' :: cs => literal c .stringLiteral .stringLiteral ((Extent.verbatim? cs).map (· + 2))
  | '"' :: '"' :: '"' :: _ => literal c .stringLiteral .rawStringLiteral (Extent.raw? c.rest)
  | '"' :: cs => literal c .stringLiteral .stringLiteral ((Extent.quoted? '"' cs).map (· + 1))
  | '\'' :: cs => literal c .charLiteral .characterLiteral ((Extent.quoted? '\'' cs).map (· + 1))
  | ch :: cs =>
    if Extent.isSpace ch then .ok (c.trivia .whitespace (Extent.run Extent.isSpace c.rest))
    else if ch == '#' && c.atLineStart then
      .ok (c.trivia .preprocessorDirective (Extent.run Extent.isInLine c.rest))
    else plain c ch cs

/-- The pieces from a cursor up to the offset `stop`, or a little past it where the last piece
reaches further. -/
def upTo : Nat → Nat → Cursor → Reading
  | 0, _, c => .ok ([], c)
  | fuel + 1, stop, c =>
    if c.offset < stop then do
      let (first, c) ← next (upTo fuel) c
      let (others, c) ← upTo fuel stop c
      pure (first ++ others, c)
    else .ok ([], c)

/-- All pieces of a text. -/
def ofChars (cs : List Char) : Except FaultAt (List Piece) := do
  let (pieces, _) ← upTo (cs.length + 1) (byteLength cs) (.ofChars cs)
  pure pieces

end Piece

end SharpLint
