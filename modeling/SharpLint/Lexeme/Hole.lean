/-!
# Holes of interpolated strings

`Hole.scan?` finds where the hole that starts here ends, and the comma and the colon that divide
it. It steps over brackets and quoted literals; it knows neither comments nor verbatim and raw
strings, so the tokens of a hole can run past the end found here.
-/

namespace SharpLint

/-- Distances, in characters, from the start of a hole to its comma, its colon and its closing
brace. -/
structure Hole where
  comma : Option Nat
  colon : Option Nat
  close : Nat
  deriving DecidableEq

namespace Hole

/-- Distance to the first closing brace. -/
def braceAfter? : Nat → List Char → Option Nat
  | _, [] => none
  | n, c :: cs => if c == '\x7d' then some n else braceAfter? (n + 1) cs

/-- Where the search stands: between literals, inside one with the given quote, or at its
character after a backslash. -/
inductive Place where
  | code
  | literal (quote : Char)
  | escaped (quote : Char)

/-- Search from the character at distance `n`, inside `depth` brackets. -/
def scanFrom (n depth : Nat) (comma : Option Nat) : Place → List Char → Option Hole
  | _, [] => none
  | .escaped q, _ :: cs => scanFrom (n + 1) depth comma (.literal q) cs
  | .literal q, c :: cs =>
    if c == q then scanFrom (n + 1) depth comma .code cs
    else if c == '\\' then scanFrom (n + 1) depth comma (.escaped q) cs
    else scanFrom (n + 1) depth comma (.literal q) cs
  | .code, c :: cs =>
    if c == '(' || c == '[' || c == '\x7b' then scanFrom (n + 1) (depth + 1) comma .code cs
    else if c == ')' || c == ']' then scanFrom (n + 1) (depth - 1) comma .code cs
    else if c == '\x7d' then
      if depth == 0 then some ⟨comma, none, n⟩ else scanFrom (n + 1) (depth - 1) comma .code cs
    else if c == ',' && depth == 0 && comma.isNone then scanFrom (n + 1) depth (some n) .code cs
    else if c == ':' && depth == 0 then (braceAfter? n (c :: cs)).map fun close => ⟨comma, some n, close⟩
    else if c == '"' || c == '\'' then scanFrom (n + 1) depth comma (.literal c) cs
    else if c == '\n' then none
    else scanFrom (n + 1) depth comma .code cs

/-- The hole whose code starts with these characters. -/
def scan? (cs : List Char) : Option Hole := scanFrom 0 0 none .code cs

end Hole

end SharpLint
