import SharpLint.Text.Bytes

/-!
# Lines and columns

A line starts at the beginning of the text and after every line feed. Lines and columns count from
one. A column counts characters; where the offset falls inside a character, it counts bytes. An
offset past the end has the column of the end.
-/

namespace SharpLint

/-- A place in a text, by line and column. -/
structure Position where
  line : Nat
  column : Nat
  deriving DecidableEq, Inhabited

def Position.render (p : Position) : String := toString p.line ++ ":" ++ toString p.column

/-- Offsets just after each line feed of a text that starts at `offset`. -/
def startsAfter (offset : Nat) : List Char → List Nat
  | [] => []
  | c :: cs =>
    let next := offset + c.utf8Size
    if c = '\n' then next :: startsAfter next cs else startsAfter next cs

/-- Offsets at which the lines of a text start. -/
def lineStarts (cs : List Char) : List Nat := 0 :: startsAfter 0 cs

/-- Search of a number among increasing ones, of which the first has the index `i`: the index of an
equal one, or as an error the index at which it could be put in. -/
def searchFrom (i x : Nat) : List Nat → Except Nat Nat
  | [] => .error i
  | y :: ys =>
    match compare y x with
    | .lt => searchFrom (i + 1) x ys
    | .eq => .ok i
    | .gt => .error i

/-- Index of the line that an offset is on, by the starts of the lines. -/
def lineIndex (starts : List Nat) (offset : Nat) : Nat :=
  match searchFrom 0 offset starts with
  | .ok exact => exact
  | .error next => next - 1

/-- Line and column of a byte offset. -/
def positionAt (cs : List Char) (offset : Nat) : Position :=
  let starts := lineStarts cs
  let line := lineIndex starts offset
  let start := starts[line]?.getD 0
  let stop := min offset (byteLength cs)
  let column := match sliceBytes? start stop cs with
    | some line => line.length
    | none => stop - start
  ⟨line + 1, column + 1⟩

/-- Carriage returns and line feeds at the end removed. -/
def dropLineEnd (cs : List Char) : List Char :=
  (cs.reverse.dropWhile fun c => c == '\r' || c == '\n').reverse

/-- Text of a line, without its end. -/
def lineText? (cs : List Char) (line : Nat) : Option (List Char) :=
  match line with
  | 0 => none
  | before + 1 =>
    let starts := lineStarts cs
    match starts[before]? with
    | none => none
    | some start =>
      (sliceBytes? start (starts[line]?.getD (byteLength cs)) cs).map dropLineEnd

end SharpLint
