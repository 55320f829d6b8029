/-!
# Classes of characters

A class of characters is the sorted list of the code points at which membership changes. A code
point belongs to the class when an odd number of boundaries lie at or below it. Blank characters are
those with the Unicode property White_Space; `trim` removes them at both ends.
-/

namespace SharpLint

/-- Sorted code points at which membership in a class of characters changes. -/
abbrev Boundaries := List Nat

/-- Membership of a code point in the class. -/
def Boundaries.contains (bounds : Boundaries) (code : Nat) : Bool :=
  (bounds.takeWhile (· ≤ code)).length % 2 == 1

/-! ## Blank characters -/

/-- Characters with the property White_Space. -/
def blankBoundaries : Boundaries :=
  [0x9, 0xe, 0x20, 0x21, 0x85, 0x86, 0xa0, 0xa1, 0x1680, 0x1681, 0x2000, 0x200b, 0x2028, 0x202a,
   0x202f, 0x2030, 0x205f, 0x2060, 0x3000, 0x3001]

/-- The property White_Space. -/
def isBlank (c : Char) : Bool := blankBoundaries.contains c.toNat

/-- Without blanks at the front. -/
def trimStart (cs : List Char) : List Char := cs.dropWhile isBlank

def trimEnd (cs : List Char) : List Char := (cs.reverse.dropWhile isBlank).reverse

/-- Without blanks at both ends. -/
def trim (cs : List Char) : List Char := trimEnd (trimStart cs)

end SharpLint
