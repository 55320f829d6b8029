import SharpLint.Text.Letter

/-!
# Extent of a token

How many characters of the remaining text a token or a piece of trivia takes. Each function looks
at the characters that follow and returns a length; `none` stands for a literal or comment that is
never closed.
-/

namespace SharpLint.Extent

/-- Number of characters before the first that fails `p`. -/
def run (p : Char → Bool) (cs : List Char) : Nat := (cs.takeWhile p).length

/-- Characters before the first occurrence of `pattern`. -/
def before? (pattern : List Char) : List Char → Option Nat
  | [] => if pattern.isEmpty then some 0 else none
  | c :: cs =>
    if pattern.isPrefixOf (c :: cs) then some 0 else (before? pattern cs).map (· + 1)

def isSpace (c : Char) : Bool := c == ' ' || c == '\t'

def isInLine (c : Char) : Bool := c != '\r' && c != '\n'

def startsName (c : Char) : Bool := c == '_' || isLetter c

def continuesName (c : Char) : Bool := c == '_' || isLetterOrNumber c

/-! ## Numbers -/

def isDigitOrSeparator (c : Char) : Bool := c.isDigit || c == '_'

def isHexDigitOrSeparator (c : Char) : Bool :=
  isDigitOrSeparator c || ('a' ≤ c && c ≤ 'f') || ('A' ≤ c && c ≤ 'F')

/-- Letters that end a number and name its type. -/
def isTypeSuffix (c : Char) : Bool := "fFdDmMuUlL".toList.contains c

/-- A point and the digits after it; a point without a digit belongs to no number. -/
def fraction : List Char → Nat
  | '.' :: d :: cs => if d.isDigit then 1 + run isDigitOrSeparator (d :: cs) else 0
  | _ => 0

/-- Digits of an exponent, which starts with one. -/
def exponentDigits : List Char → Option Nat
  | d :: cs => if d.isDigit then some (run isDigitOrSeparator (d :: cs)) else none
  | [] => none

/-- The letter `e`, a sign and digits; nothing when the digits are missing. -/
def exponent : List Char → Nat
  | e :: cs =>
    if e == 'e' || e == 'E' then
      match cs with
      | s :: ds =>
        if s == '+' || s == '-' then ((exponentDigits ds).map (· + 2)).getD 0
        else ((exponentDigits cs).map (· + 1)).getD 0
      | [] => 0
    else 0
  | [] => 0

/-- Digits, fraction and exponent. -/
def decimal (cs : List Char) : Nat :=
  let whole := run isDigitOrSeparator cs
  let upToFraction := whole + fraction (cs.drop whole)
  upToFraction + exponent (cs.drop upToFraction)

/-- A number before its suffix. -/
def unsuffixed : List Char → Nat
  | '0' :: x :: cs =>
    if x == 'x' || x == 'X' then 2 + run isHexDigitOrSeparator cs else decimal ('0' :: x :: cs)
  | cs => decimal cs

/-- A numeric literal. -/
def number (cs : List Char) : Nat :=
  let digits := unsuffixed cs
  digits + run isTypeSuffix (cs.drop digits)

/-! ## Strings -/

/-- From after the opening quote of a literal with backslash escapes to after its closing quote.
Such a literal stays on its line, except for an escaped line feed. -/
def quoted? (quote : Char) : List Char → Option Nat
  | [] => none
  | [c] => if c == quote then some 1 else none
  | c :: d :: cs =>
    if c == '\\' then (quoted? quote cs).map (· + 2)
    else if c == '\n' then none
    else if c == quote then some 1
    else (quoted? quote (d :: cs)).map (· + 1)

/-- From after the opening quote of a verbatim literal to after its closing quote. Two quotes stand
for one. -/
def verbatim? : List Char → Option Nat
  | [] => none
  | [c] => if c == '"' then some 1 else none
  | c :: d :: cs =>
    if c == '"' then if d == '"' then (verbatim? cs).map (· + 2) else some 1
    else (verbatim? (d :: cs)).map (· + 1)

/-- A literal opened by three or more quotes and closed by the first run of as many. -/
def raw? (cs : List Char) : Option Nat :=
  let quotes := run (· == '"') cs
  (before? (List.replicate quotes '"') (cs.drop quotes)).map (quotes + · + quotes)

/-- Literal text of an interpolated string, up to a quote, the brace of a hole, or, unless the
string is verbatim, a line feed. -/
def interpolatedText (verbatim : Bool) : List Char → Nat
  | [] => 0
  | [c] => if c == '"' || c == '\x7b' || (c == '\n' && !verbatim) then 0 else 1
  | c :: d :: cs =>
    if c == '\\' && !verbatim then interpolatedText verbatim cs + 2
    else if (c == '\x7b' || c == '\x7d') && d == c then interpolatedText verbatim cs + 2
    else if c == '"' && verbatim && d == '"' then interpolatedText verbatim cs + 2
    else if c == '"' || c == '\x7b' || (c == '\n' && !verbatim) then 0
    else interpolatedText verbatim (d :: cs) + 1

end SharpLint.Extent
