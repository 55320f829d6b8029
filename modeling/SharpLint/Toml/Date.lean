import SharpLint.Toml.Number

/-!
# Dates of a configuration file

A date is a day of the calendar, a time of day, or both, and with both it may say how far it is from
universal time. There are several spellings of one date: a space or a small letter between day and
time, a small letter for universal time, zeros behind the point. `Date.text` is the one that is
shown: a capital letter, and no more digits behind the point than it takes.
-/

namespace SharpLint.Toml

/-- A day of the calendar. -/
structure Day where
  year : Nat
  month : Nat
  day : Nat
  deriving DecidableEq

/-- A time of day. Digits behind the ninth of a fraction are dropped. -/
structure TimeOfDay where
  hour : Nat
  minute : Nat
  second : Nat
  nanosecond : Nat
  deriving DecidableEq

/-- A distance from universal time. -/
inductive Offset where
  | universal
  | minutes (n : Int)
  deriving DecidableEq

/-- A date. -/
inductive Date where
  | day (d : Day)
  | time (t : TimeOfDay)
  | both (d : Day) (t : TimeOfDay) (offset : Option Offset)
  deriving DecidableEq

/-! ## Reading -/

/-- The number that `count` digits in front spell, and the rest. -/
def digits? (count : Nat) (cs : List Char) : Option (Nat × List Char) :=
  let digits := cs.take count
  if digits.length = count ∧ digits.all isDigit then some (numberOf 10 digits, cs.drop count) else none

def daysIn (year month : Nat) : Nat :=
  if month = 2 then
    if year % 4 = 0 ∧ (year % 100 ≠ 0 ∨ year % 400 = 0) then 29 else 28
  else if month = 4 ∨ month = 6 ∨ month = 9 ∨ month = 11 then 30
  else 31

/-- A day of the calendar in front, and the rest. -/
def Day.read? (cs : List Char) : Option (Day × List Char) := do
  let (year, cs) ← digits? 4 cs
  let cs ← after? ['-'] cs
  let (month, cs) ← digits? 2 cs
  let cs ← after? ['-'] cs
  let (day, cs) ← digits? 2 cs
  if 1 ≤ month ∧ month ≤ 12 ∧ 1 ≤ day ∧ day ≤ daysIn year month then pure (⟨year, month, day⟩, cs)
  else none

/-- Hours and minutes in front, and the rest. -/
def clock? (cs : List Char) : Option (Nat × Nat × List Char) := do
  let (hour, cs) ← digits? 2 cs
  let cs ← after? [':'] cs
  let (minute, cs) ← digits? 2 cs
  pure (hour, minute, cs)

def isClock (hour minute : Nat) : Bool := decide (hour ≤ 23) && decide (minute ≤ 59)

/-- The nanoseconds that the digits of a fraction spell. -/
def nanoseconds (digits : List Char) : Nat := numberOf 10 ((digits ++ List.replicate 9 '0').take 9)

/-- The nanoseconds of a fraction in front, zero without one, and the rest. -/
def fraction? : List Char → Option (Nat × List Char)
  | '.' :: cs =>
    match cs.takeWhile isDigit with
    | [] => none
    | digits => some (nanoseconds digits, cs.dropWhile isDigit)
  | cs => some (0, cs)

/-- A time of day in front, and the rest. A minute may have a leap second. -/
def TimeOfDay.read? (cs : List Char) : Option (TimeOfDay × List Char) := do
  let (hour, minute, cs) ← clock? cs
  let cs ← after? [':'] cs
  let (second, cs) ← digits? 2 cs
  let (nanosecond, cs) ← fraction? cs
  if isClock hour minute && decide (second ≤ 60) then
    pure (⟨hour, minute, second, nanosecond⟩, cs)
  else none

/-- The whole of `cs` as a distance from universal time, or as nothing. `fits` says which hours and
minutes it may have. -/
def Offset.read? (fits : Nat → Nat → Bool) : List Char → Option (Option Offset)
  | [] => some none
  | ['Z'] | ['z'] => some (some .universal)
  | sign :: cs => do
    let (hour, minute, rest) ← clock? cs
    let n : Int := 60 * hour + minute
    if rest.isEmpty && fits hour minute then
      if sign = '+' then pure (some (.minutes n))
      else if sign = '-' then pure (some (.minutes (-n)))
      else none
    else none

namespace Date

/-- The whole of `cs` as a date. `fits` says which distances from universal time there are. -/
def read? (fits : Nat → Nat → Bool) (cs : List Char) : Option Date :=
  match Day.read? cs with
  | some (d, []) => some (.day d)
  | some (d, c :: cs) =>
    if c = 'T' ∨ c = 't' ∨ c = ' ' then do
      let (t, cs) ← TimeOfDay.read? cs
      let offset ← Offset.read? fits cs
      pure (.both d t offset)
    else none
  | none =>
    match TimeOfDay.read? cs with
    | some (t, []) => some (.time t)
    | _ => none

/-- A date of a configuration file. -/
def ofWord? (cs : List Char) : Option Date := read? isClock cs

/-- A date in a string. It may be up to a day from universal time, in whatever hours and minutes. -/
def ofText? (text : String) : Option Date :=
  read? (fun hour minute => decide (60 * hour + minute ≤ 1440)) text.toList

end Date

/-! ## Showing -/

/-- A number with zeros in front, so that it has `width` digits. -/
def padded (width n : Nat) : List Char :=
  let digits := Nat.toDigits 10 n
  List.replicate (width - digits.length) '0' ++ digits

/-- A day as it is shown. -/
def Day.chars (d : Day) : List Char :=
  padded 4 d.year ++ '-' :: padded 2 d.month ++ '-' :: padded 2 d.day

/-- Nanoseconds as a fraction, nothing for zero. -/
def fractionChars (nanosecond : Nat) : List Char :=
  if nanosecond = 0 then []
  else '.' :: ((padded 9 nanosecond).reverse.dropWhile (· == '0')).reverse

def TimeOfDay.chars (t : TimeOfDay) : List Char :=
  padded 2 t.hour ++ ':' :: padded 2 t.minute ++ ':' :: padded 2 t.second
    ++ fractionChars t.nanosecond

/-- A distance from universal time as it is shown. -/
def Offset.chars : Offset → List Char
  | .universal => ['Z']
  | .minutes n =>
    (if n < 0 then '-' else '+') :: padded 2 (n.natAbs / 60) ++ ':' :: padded 2 (n.natAbs % 60)

namespace Date

def chars : Date → List Char
  | .day d => d.chars
  | .time t => t.chars
  | .both d t offset => d.chars ++ 'T' :: t.chars ++ (offset.map Offset.chars).getD []

/-- A date as it is shown. -/
def text (d : Date) : String := String.ofList d.chars

end Date

end SharpLint.Toml
