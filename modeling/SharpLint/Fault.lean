import SharpLint.Text.Lines
import SharpLint.Text.Quoted

/-!
# Faults of a source text

Why a text cannot be read, and where. A `Fault` carries the cause, `FaultAt` adds the byte offset,
and `ParseError` turns the offset into a line and a column for the message.
-/

namespace SharpLint

/-- A literal or comment that is never closed. -/
inductive Unclosed where
  | comment | stringLiteral | characterLiteral | rawStringLiteral | interpolatedString
  deriving DecidableEq, Inhabited

def Unclosed.name : Unclosed → String
  | .comment => "comment"
  | .stringLiteral => "string literal"
  | .characterLiteral => "character literal"
  | .rawStringLiteral => "raw string literal"
  | .interpolatedString => "interpolated string"

/-- Why a text cannot be read. -/
inductive Fault where
  /-- A character that starts no token. -/
  | unexpectedCharacter (found : Char)
  /-- A literal or comment that is never closed. -/
  | unterminated (what : Unclosed)
  /-- The grammar asks for something else here. -/
  | expected (what found : String)
  deriving DecidableEq

/-- A fault and its byte offset. -/
structure FaultAt where
  fault : Fault
  offset : Nat
  deriving DecidableEq

/-- A fault and its line and column. -/
structure ParseError where
  fault : Fault
  position : Position
  deriving DecidableEq

namespace ParseError

def locate (text : List Char) (e : FaultAt) : ParseError := ⟨e.fault, positionAt text e.offset⟩

def message (e : ParseError) : String :=
  match e.fault with
  | .unexpectedCharacter c => "unexpected character " ++ quotedChar c ++ " at " ++ e.position.render
  | .unterminated what => "unterminated " ++ what.name ++ " starting at " ++ e.position.render
  | .expected what found =>
    "expected " ++ what ++ ", found " ++ quotedText found ++ " at " ++ e.position.render

end ParseError

end SharpLint
