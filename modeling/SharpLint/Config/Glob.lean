import SharpLint.Text.Search

/-!
# Glob patterns

A pattern is a list of pieces, and `Glob.accepts` says which texts it stands for. A question mark
stands for any character and a star for any characters, slashes included. Two stars have to fill a
part of a path: they stand for any number of directories, and at the end for all that follows. Other
runs of stars, and a bracket that is never closed, make no pattern.
-/

namespace SharpLint

/-- What a class in brackets lists: the characters from `low` to `high`. -/
structure CharRange where
  low : Char
  high : Char
  deriving DecidableEq

/-- The character is in the range. -/
def CharRange.contains (r : CharRange) (c : Char) : Bool := decide (r.low ≤ c) && decide (c ≤ r.high)

/-- A piece of a pattern. -/
inductive GlobPiece where
  | char (c : Char)
  | anyChar
  | anyText
  | directories
  | oneOf (ranges : List CharRange)
  | noneOf (ranges : List CharRange)
  deriving DecidableEq

namespace GlobPiece

/-- The pieces that stand for one character accept this one. -/
def acceptsChar (piece : GlobPiece) (c : Char) : Bool :=
  match piece with
  | .char d => c == d
  | .anyChar => true
  | .oneOf ranges => ranges.any (·.contains c)
  | .noneOf ranges => !ranges.any (·.contains c)
  | .anyText | .directories => false

end GlobPiece

/-! ## Reading a pattern -/

/-- The ranges listed between brackets. -/
def charRanges : List Char → List CharRange
  | [] => []
  | a :: '-' :: b :: cs => ⟨a, b⟩ :: charRanges cs
  | c :: cs => ⟨c, c⟩ :: charRanges cs

/-- The inside of a class and what follows it. A closing bracket that comes first is listed. -/
def classBody? : List Char → Option (List Char × List Char)
  | [] => none
  | c :: cs => (around? [']'] cs).map fun (inside, rest) => (c :: inside, rest)

/-- The class behind an opening bracket. -/
def class? : List Char → Option (GlobPiece × List Char)
  | '!' :: cs => (classBody? cs).map fun (inside, rest) => (.noneOf (charRanges inside), rest)
  | cs => (classBody? cs).map fun (inside, rest) => (.oneOf (charRanges inside), rest)

/-- The piece for a run of `count` stars, `rest` behind it; `fresh` says that a part of the path
starts with the run. -/
def stars? (fresh : Bool) (count : Nat) (rest : List Char) : Option (GlobPiece × List Char) :=
  match count with
  | 0 | 1 => some (.anyText, rest)
  | 2 =>
    if fresh then
      match rest with
      | [] => some (.directories, [])
      | '/' :: cs => some (.directories, cs)
      | _ => none
    else none
  | _ => none

/-- The pieces of a text of at most `fuel` characters. -/
def globPieces : Nat → Bool → List Char → Option (List GlobPiece)
  | _, _, [] => some []
  | 0, _, _ => none
  | fuel + 1, fresh, c :: cs =>
    if c = '?' then (globPieces fuel false cs).map (.anyChar :: ·)
    else if c = '*' then do
      let (piece, rest) ← stars? fresh ((c :: cs).takeWhile (· == '*')).length (cs.dropWhile (· == '*'))
      let pieces ← globPieces fuel (piece == .directories) rest
      pure (piece :: pieces)
    else if c = '[' then do
      let (piece, rest) ← class? cs
      let pieces ← globPieces fuel false rest
      pure (piece :: pieces)
    else (globPieces fuel (c == '/') cs).map (.char c :: ·)

/-- A pattern. -/
structure Glob where
  pieces : List GlobPiece
  deriving DecidableEq

/-- The pattern that a text spells. -/
def Glob.ofText? (text : String) : Option Glob :=
  (globPieces text.length true text.toList).map Glob.mk

/-! ## Matching -/

/-- A text and all its ends, the empty one last. -/
def endings : List Char → List (List Char)
  | [] => [[]]
  | c :: cs => (c :: cs) :: endings cs

/-- What follows each slash of a text, then the empty end. -/
def afterSlashes : List Char → List (List Char)
  | [] => [[]]
  | c :: cs => if c = '/' then cs :: afterSlashes cs else afterSlashes cs

/-- The pieces stand for the whole text. -/
def acceptedBy : List GlobPiece → List Char → Bool
  | [], cs => cs.isEmpty
  | .anyText :: pieces, cs => (endings cs).any (acceptedBy pieces)
  | .directories :: pieces, cs => (cs :: afterSlashes cs).any (acceptedBy pieces)
  | piece :: pieces, c :: cs => piece.acceptsChar c && acceptedBy pieces cs
  | _ :: _, [] => false

/-- The pattern stands for the text. -/
def Glob.accepts (g : Glob) (text : String) : Bool := acceptedBy g.pieces text.toList

end SharpLint
