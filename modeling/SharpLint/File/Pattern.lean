import SharpLint.Config.Glob

/-!
# Patterns of ignore files

A pattern is a list of pieces that stand for the bytes of a path. A question mark stands for one byte
and a star for any bytes, slashes left out; a class in brackets stands for one byte. Two stars that
fill a part of a path stand for any directories. Braces list alternatives.

Matching follows what can remain of a path behind a piece: `IgnorePiece.rests` lists the rests of
one piece, and a pattern accepts a path when one of the rests behind its last piece is empty.
-/

namespace SharpLint

/-! ## Bytes -/

/-- The bytes of a text. -/
def utf8Bytes (cs : List Char) : List UInt8 := cs.flatMap String.utf8EncodeChar

def slashByte : UInt8 := 47

/-- The bytes from `low` to `high`. -/
structure ByteRange where
  low : UInt8
  high : UInt8
  deriving DecidableEq

/-- The byte is in the range. -/
def ByteRange.contains (r : ByteRange) (b : UInt8) : Bool :=
  decide (r.low ≤ b) && decide (b ≤ r.high)

/-- The bytes that a class with a range of characters lists. Both ends are spelled in bytes: the
range goes from the last byte of the low end to the first byte of the high end, and all other bytes
are listed one by one. -/
def CharRange.bytes (r : CharRange) : List ByteRange :=
  let single (b : UInt8) : ByteRange := ⟨b, b⟩
  let low := String.utf8EncodeChar r.low
  let high := String.utf8EncodeChar r.high
  if r.low = r.high then low.map single
  else
    low.dropLast.map single ++ [⟨low.getLast?.getD 0, high.head?.getD 0⟩] ++ high.tail.map single

/-! ## Pieces -/

/-- A piece of a pattern. -/
inductive IgnorePiece where
  | char (c : Char)
  /-- One byte other than a slash. -/
  | anyByte
  /-- Any bytes other than slashes. -/
  | anyBytes
  | oneOf (ranges : List CharRange)
  | noneOf (ranges : List CharRange)
  /-- Two stars in front: nothing, or any directories. -/
  | leadingDirectories
  /-- Two stars between slashes: one slash, or any directories between two. -/
  | innerDirectories
  /-- Two stars behind a slash: a slash and all that follows. -/
  | everythingBelow
  /-- One of some alternatives, none of which is empty; without any, nothing. -/
  | choice (alternatives : List (List IgnorePiece))

/-- The ends of a path that follow bytes other than slashes, the path itself included. -/
def endsInName : List UInt8 → List (List UInt8)
  | [] => [[]]
  | b :: bs => (b :: bs) :: (if b = slashByte then [] else endsInName bs)

/-- What follows each slash of a path. -/
def behindSlashes : List UInt8 → List (List UInt8)
  | [] => []
  | b :: bs => if b = slashByte then bs :: behindSlashes bs else behindSlashes bs

/-- A path and all its ends, the empty one last. -/
def allEnds : List UInt8 → List (List UInt8)
  | [] => [[]]
  | b :: bs => (b :: bs) :: allEnds bs

/-- What remains behind one byte of a kind. -/
def behindByte (isGood : UInt8 → Bool) : List UInt8 → List (List UInt8)
  | [] => []
  | b :: bs => if isGood b then [bs] else []

def behindSlash (next : List UInt8 → List (List UInt8)) : List UInt8 → List (List UInt8)
  | [] => []
  | b :: bs => if b = slashByte then next bs else []

def listsByte (ranges : List CharRange) (b : UInt8) : Bool :=
  (ranges.flatMap CharRange.bytes).any (·.contains b)

/-- What remains behind the bytes `start`, if the path begins with them. -/
def behindBytes (start bs : List UInt8) : List (List UInt8) :=
  if start.isPrefixOf bs then [bs.drop start.length] else []

mutual

/-- What can remain of a path behind a piece. -/
def IgnorePiece.rests : IgnorePiece → List UInt8 → List (List UInt8)
  | .char c, bs => behindBytes (String.utf8EncodeChar c) bs
  | .anyByte, bs => behindByte (· != slashByte) bs
  | .anyBytes, bs => endsInName bs
  | .oneOf ranges, bs => behindByte (listsByte ranges) bs
  | .noneOf ranges, bs => behindByte (fun b => !listsByte ranges b) bs
  | .leadingDirectories, bs => bs :: behindSlashes bs
  | .innerDirectories, bs => behindSlash (fun bs => bs :: behindSlashes bs) bs
  | .everythingBelow, bs => behindSlash allEnds bs
  | .choice alternatives, bs => if alternatives.isEmpty then [bs] else restsOfAny alternatives bs

/-- What can remain of a path behind some pieces, each rest once. -/
def restsOf : List IgnorePiece → List UInt8 → List (List UInt8)
  | [], bs => [bs]
  | p :: ps, bs => ((p.rests bs).flatMap (restsOf ps)).eraseDups

/-- What can remain of a path behind one of some alternatives. -/
def restsOfAny : List (List IgnorePiece) → List UInt8 → List (List UInt8)
  | [], _ => []
  | a :: as, bs => restsOf a bs ++ restsOfAny as bs

end

/-- The pieces stand for the whole path. Two stars alone stand for every path. -/
def acceptsPath (pieces : List IgnorePiece) (path : List UInt8) : Bool :=
  match pieces with
  | [.leadingDirectories] => true
  | _ => (restsOf pieces path).any List.isEmpty

/-! ## Reading -/

/-- What is wrong with a pattern. -/
inductive PatternFault where
  /-- A range whose end comes before its start. -/
  | backwards (low high : Char)
  /-- A closing brace without an opening one. -/
  | unopened
  /-- An opening brace without a closing one. -/
  | unclosed
  /-- A backslash with nothing behind it. -/
  | loneBackslash
  deriving DecidableEq

def PatternFault.message : PatternFault → String
  | .backwards low high => "invalid range; '" ++ low.toString ++ "' > '" ++ high.toString ++ "'"
  | .unopened =>
    "unopened alternate group; missing '\x7b' (maybe escape '\x7d' with '[\x7d]'?)"
  | .unclosed =>
    "unclosed alternate group; missing '\x7d' (maybe escape '\x7b' with '[\x7b]'?)"
  | .loneBackslash => "dangling '\\'"

/-- The ranges of a class, behind those read before, latest first, and what follows the closing
bracket; `none` when the class is never closed. A closing bracket that comes first is listed, and so
is a dash at either end. A dash behind a range moves the end of that range. -/
def readClass (first inRange : Bool) (ranges : List CharRange) :
    List Char → Except PatternFault (Option (List CharRange × List Char))
  | [] => .ok none
  | c :: cs =>
    if c = ']' && !first then
      .ok (some ((if inRange then ⟨'-', '-'⟩ :: ranges else ranges).reverse, cs))
    else if c = '-' && !first && !inRange then readClass false true ranges cs
    else
      match inRange, ranges with
      | true, r :: rs =>
        if c < r.low then .error (.backwards r.low c) else readClass false false (⟨r.low, c⟩ :: rs) cs
      | _, _ => readClass false false (⟨c, c⟩ :: ranges) cs

/-- The class behind an opening bracket, and what follows it. -/
def readBrackets (cs : List Char) : Except PatternFault (Option (IgnorePiece × List Char)) :=
  match cs with
  | '!' :: cs | '^' :: cs => do
    pure ((← readClass true false [] cs).map fun (ranges, rest) => (.noneOf ranges, rest))
  | cs => do pure ((← readClass true false [] cs).map fun (ranges, rest) => (.oneOf ranges, rest))

/-- A brace that is not closed yet. -/
structure OpenBrace where
  /-- The alternatives that are complete. -/
  alternatives : List (List IgnorePiece)
  /-- The pieces in front of the brace, latest first. -/
  before : List IgnorePiece

/-- A pattern that is read up to some place. -/
structure PatternDraft where
  /-- The pieces since the start, the last open brace or the last comma in it, latest first. -/
  pieces : List IgnorePiece
  /-- The open braces, innermost first. -/
  braces : List OpenBrace

/-- The piece stands for nothing at all. -/
def IgnorePiece.isVoid : IgnorePiece → Bool
  | .choice [] => true
  | _ => false

namespace PatternDraft

/-- Nothing is read yet. -/
def empty : PatternDraft := ⟨[], []⟩

def push (d : PatternDraft) (piece : IgnorePiece) : PatternDraft :=
  { d with pieces := piece :: d.pieces }

/-- The place is between braces. -/
def isInside (d : PatternDraft) : Bool := !d.braces.isEmpty

def openBrace (d : PatternDraft) : PatternDraft := ⟨[], ⟨[], d.pieces⟩ :: d.braces⟩

/-- Behind a comma, which divides alternatives between braces only. -/
def comma (d : PatternDraft) : PatternDraft :=
  match d.braces with
  | [] => d.push (.char ',')
  | b :: bs => ⟨[], { b with alternatives := b.alternatives ++ [d.pieces.reverse] } :: bs⟩

/-- Behind a closing brace. Alternatives that stand for nothing are left out. -/
def closeBrace (d : PatternDraft) : Except PatternFault PatternDraft :=
  match d.braces with
  | [] => .error .unopened
  | b :: bs =>
    let alternatives := (b.alternatives ++ [d.pieces.reverse]).filter fun a => !a.all IgnorePiece.isVoid
    .ok ⟨.choice alternatives :: b.before, bs⟩

/-- With the last piece, a slash, taken into a piece for directories. -/
def mergeLast (d : PatternDraft) (piece : IgnorePiece) : PatternDraft :=
  match d.pieces with
  | .leadingDirectories :: _ | .everythingBelow :: _ => d
  | _ :: pieces => { d with pieces := piece :: pieces }
  | [] => d.push piece

/-- Behind two stars, with `last` in front of them and `cs` behind: the draft, the last character
read, and the rest. -/
def doubleStar (d : PatternDraft) (last : Char) (cs : List Char) : PatternDraft × Char × List Char :=
  let plain := (d.push .anyBytes, '*', cs)
  if d.pieces.isEmpty then
    match cs with
    | [] => (d.push .leadingDirectories, '*', [])
    | '/' :: rest => (d.push .leadingDirectories, '/', rest)
    | _ => plain
  else if last == '/' || (d.isInside && (last == ',' || last == '\x7b')) then
    match cs with
    | [] => (d.mergeLast .everythingBelow, '*', [])
    | '/' :: rest => (d.mergeLast .innerDirectories, '/', rest)
    | c :: _ =>
      if d.isInside && (c == ',' || c == '\x7d') then (d.mergeLast .everythingBelow, '*', cs)
      else plain
  else plain

/-- The pieces of a pattern whose rest has at most `fuel` characters. `last` is the last character
read; `classes` tells that an opening bracket may still begin a class. A bracket that is never closed
stands for itself. -/
def finish : Nat → Bool → PatternDraft → Char → List Char → Except PatternFault (List IgnorePiece)
  | _, _, d, _, [] => if d.isInside then .error .unclosed else .ok d.pieces.reverse
  | 0, _, _, _, _ => .error .unclosed
  | fuel + 1, classes, d, last, c :: cs =>
    if c = '?' then finish fuel classes (d.push .anyByte) c cs
    else if c = '*' then
      match cs with
      | '*' :: rest =>
        let (d, last, rest) := d.doubleStar last rest
        finish fuel classes d last rest
      | _ => finish fuel classes (d.push .anyBytes) c cs
    else if c = '[' && classes then
      match readBrackets cs with
      | .error e => .error e
      | .ok none => finish fuel false (d.push (.char c)) c cs
      | .ok (some (piece, rest)) => finish fuel classes (d.push piece) ']' rest
    else if c = '\x7b' then finish fuel classes d.openBrace c cs
    else if c = '\x7d' then
      match d.closeBrace with
      | .error e => .error e
      | .ok d => finish fuel classes d c cs
    else if c = ',' then finish fuel classes d.comma c cs
    else if c = '\\' then
      match cs with
      | [] => .error .loneBackslash
      | e :: rest => finish fuel classes (d.push (.char e)) e rest
    else finish fuel classes (d.push (.char c)) c cs

end PatternDraft

/-- The pieces that a text spells. -/
def ignorePieces (cs : List Char) : Except PatternFault (List IgnorePiece) :=
  PatternDraft.empty.finish cs.length true ' ' cs

end SharpLint
