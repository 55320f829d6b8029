import SharpLint.Toml.Text

/-!
# Numbers of a configuration file

A number reaches as far as the characters of a bare word go, and is told by its whole spelling.
-/

namespace SharpLint.Toml

def isDigit (c : Char) : Bool := decide ('0' ≤ c ∧ c ≤ '9')

/-- Digits without the single underscores between them. -/
def ungroup? (isDigit : Char → Bool) (cs : List Char) : Option (List Char) :=
  let groups := splitAtEach '_' cs
  if groups.all fun g => !g.isEmpty && g.all isDigit then some groups.flatten else none

/-- A sign in front, and the rest. -/
def splitSign : List Char → Bool × List Char
  | '-' :: cs => (true, cs)
  | '+' :: cs => (false, cs)
  | cs => (false, cs)

/-- Decimal digits that do not start with a superfluous zero. -/
def wholeDigits? (cs : List Char) : Option (List Char) :=
  match ungroup? isDigit cs with
  | some ('0' :: _ :: _) => none
  | digits => digits

def numberOf (base : Nat) (digits : List Char) : Nat := ofDigits base (digits.filterMap hexDigit?)

/-- The number fits into 64 bits with a sign. -/
def fitsWord (n : Int) : Bool :=
  decide (-0x8000000000000000 ≤ n) && decide (n < 0x8000000000000000)

/-- A number in a base with a mark of its own. -/
def basedInteger? (base : Nat) (cs : List Char) : Option Int := do
  let digits ← ungroup? (fun c => (hexDigit? c).any (· < base)) cs
  let n := (numberOf base digits : Int)
  if fitsWord n then pure n else none

def integer? : List Char → Option Int
  | '0' :: 'x' :: cs => basedInteger? 16 cs
  | '0' :: 'o' :: cs => basedInteger? 8 cs
  | '0' :: 'b' :: cs => basedInteger? 2 cs
  | cs => do
    let (negative, cs) := splitSign cs
    let digits ← wholeDigits? cs
    let n := (numberOf 10 digits : Int)
    let n := if negative then -n else n
    if fitsWord n then pure n else none

/-! ## Numbers with a point -/

/-- The least value that rounds to infinity in double precision. -/
def infinityBound : Nat := Nat.pow 2 1024 - Nat.pow 2 970

/-- `m * 10 ^ e` rounds to infinity in double precision. -/
def roundsToInfinity (m : Nat) (e : Int) : Bool :=
  if m = 0 then false
  else
    let magnitude := ((Nat.toDigits 10 m).length : Int) + e
    if magnitude < 300 then false
    else if 400 < magnitude then true
    else if 0 ≤ e then decide (infinityBound ≤ m * Nat.pow 10 e.toNat)
    else decide (infinityBound * Nat.pow 10 (-e).toNat ≤ m)

/-- The digits before and behind the point; without a point, none behind. -/
def mantissa? (cs : List Char) : Option (List Char × List Char) :=
  match around? ['.'] cs with
  | some (whole, fraction) => do
    let whole ← wholeDigits? whole
    let fraction ← ungroup? isDigit fraction
    pure (whole, fraction)
  | none => (wholeDigits? cs).map fun whole => (whole, [])

/-- The value of an exponent. -/
def exponent? (cs : List Char) : Option Int := do
  let (negative, cs) := splitSign cs
  let digits ← ungroup? isDigit cs
  let n := (numberOf 10 digits : Int)
  pure (if negative then -n else n)

/-- A number with a point or an exponent. A positive one may not be too large for double
precision. -/
def isFloat (cs : List Char) : Bool :=
  let (negative, body) := splitSign cs
  if body = "inf".toList ∨ body = "nan".toList then true
  else
    let lower := body.map fun c => if c = 'E' then 'e' else c
    let read : Option (List Char × List Char × Int) := match around? ['e'] lower with
      | some (m, e) => do
        let (whole, fraction) ← mantissa? m
        let exponent ← exponent? e
        pure (whole, fraction, exponent)
      | none =>
        if lower.contains '.' then (mantissa? lower).map fun (whole, fraction) => (whole, fraction, 0)
        else none
    match read with
    | none => false
    | some (whole, fraction, exponent) =>
      negative || !roundsToInfinity (numberOf 10 (whole ++ fraction)) (exponent - fraction.length)

end SharpLint.Toml
