import SharpLint.Lexeme.Piece

/-!
# Lexemes: tokens with their trivia

Trivia after a token, up to and with the first line end, trail that token; all other trivia lead
the token that follows. The last lexeme marks the end of the text and leads with whatever trivia
are left.
-/

namespace SharpLint

/-- A token and the byte offset of its text. -/
structure Lexeme where
  token : Token
  offset : Nat
  deriving DecidableEq, Inhabited

namespace Lexeme

/-- Where attachment stands: trivia that will lead the next token, or a token that still takes
trailing trivia. -/
inductive Pending where
  | leading (ts : List Trivia)
  | trailing (l : Lexeme)

def trail (l : Lexeme) (t : Trivia) : Lexeme :=
  { l with token := { l.token with trailing := l.token.trailing ++ [t] } }

def endOfText (leading : List Trivia) (offset : Nat) : Lexeme :=
  ⟨⟨.endOfFile, "", leading, []⟩, offset⟩

/-- Lexemes of the pieces that follow, for a text of `stop` bytes. -/
def attach (stop : Nat) : Pending → List Piece → List Lexeme
  | .leading ts, [] => [endOfText ts stop]
  | .trailing l, [] => [l, endOfText [] stop]
  | .leading ts, .trivia t :: ps => attach stop (.leading (ts ++ [t])) ps
  | .trailing l, .trivia t :: ps =>
    if t.kind = .endOfLine then l.trail t :: attach stop (.leading []) ps
    else attach stop (.trailing (l.trail t)) ps
  | .leading ts, .token kind text offset :: ps =>
    attach stop (.trailing ⟨⟨kind, text, ts, []⟩, offset⟩) ps
  | .trailing l, .token kind text offset :: ps =>
    l :: attach stop (.trailing ⟨⟨kind, text, [], []⟩, offset⟩) ps

/-- The lexemes of a text, the end of the text last. -/
def ofChars (cs : List Char) : Except FaultAt (List Lexeme) := do
  let pieces ← Piece.ofChars cs
  pure (attach (byteLength cs) (.leading []) pieces)

end Lexeme

end SharpLint
