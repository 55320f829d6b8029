import SharpLint.Tree.TokenKind
import SharpLint.Text.Bytes

/-!
# Tokens

A token is its kind, its text, and the trivia before and after it. Nothing between two tokens is
lost: trivia are attached to one of them.
-/

namespace SharpLint

/-- Blank space, a line end, a comment or a preprocessor line. -/
structure Trivia where
  kind : TriviaKind
  text : String
  deriving DecidableEq, Inhabited

namespace Trivia

def space : Trivia := ⟨.whitespace, " "⟩

def width (t : Trivia) : Nat := t.text.utf8ByteSize

/-- Characters of several pieces of trivia, in order. -/
def chars (ts : List Trivia) : List Char := ts.flatMap (·.text.toList)

/-- Width of several pieces of trivia. -/
def widths : List Trivia → Nat
  | [] => 0
  | t :: ts => t.width + widths ts

end Trivia

/-- A token with the trivia attached to it. -/
structure Token where
  kind : TokenKind
  text : String
  leading : List Trivia
  trailing : List Trivia
  deriving DecidableEq, Inhabited

namespace Token

/-- A token without trivia. -/
def bare (kind : TokenKind) (text : String) : Token := ⟨kind, text, [], []⟩

def ofKind (kind : TokenKind) : Token := bare kind (kind.fixedText?.getD "")

def fullWidth (t : Token) : Nat :=
  Trivia.widths t.leading + t.text.utf8ByteSize + Trivia.widths t.trailing

def fullChars (t : Token) : List Char :=
  Trivia.chars t.leading ++ t.text.toList ++ Trivia.chars t.trailing

end Token

/-! ## Lemmas -/

theorem Trivia.widths_eq_byteLength (ts : List Trivia) :
    Trivia.widths ts = byteLength (Trivia.chars ts) := by
  induction ts with
  | nil => rfl
  | cons t ts ih =>
    rw [Trivia.widths, ih, Trivia.width, utf8ByteSize_eq_byteLength]
    simp [Trivia.chars]

theorem Token.fullWidth_eq_byteLength (t : Token) : t.fullWidth = byteLength t.fullChars := by
  simp [Token.fullWidth, Token.fullChars, Trivia.widths_eq_byteLength, utf8ByteSize_eq_byteLength,
    Nat.add_assoc]

end SharpLint
