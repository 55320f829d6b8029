/-!
# Searching and splitting lists of characters
-/

namespace SharpLint

/-- The parts between the occurrences of `sep`; one part more than there are occurrences. -/
def splitAtEach (sep : Char) : List Char → List (List Char)
  | [] => [[]]
  | c :: cs =>
    if c = sep then [] :: splitAtEach sep cs
    else match splitAtEach sep cs with
      | [] => [[c]]
      | part :: parts => (c :: part) :: parts

/-- What follows `start`, if the text begins with it. -/
def after? (start : List Char) (cs : List Char) : Option (List Char) :=
  if start.isPrefixOf cs then some (cs.drop start.length) else none

/-- What precedes `ending`, if the text ends with it. -/
def beforeEnd? (ending : List Char) (cs : List Char) : Option (List Char) :=
  if ending.isSuffixOf cs then some (cs.take (cs.length - ending.length)) else none

/-- The text before and after the first occurrence of `pattern`. -/
def around? (pattern : List Char) : List Char → Option (List Char × List Char)
  | [] => if pattern.isEmpty then some ([], []) else none
  | c :: cs =>
    if pattern.isPrefixOf (c :: cs) then some ([], (c :: cs).drop pattern.length)
    else (around? pattern cs).map fun (a, b) => (c :: a, b)

/-- The text with every occurrence of `pattern` replaced, from left to right; `skip` characters
belong to an occurrence already replaced. -/
def replaceFrom (pattern replacement : List Char) (skip : Nat) : List Char → List Char
  | [] => []
  | c :: cs =>
    match skip with
    | n + 1 => replaceFrom pattern replacement n cs
    | 0 =>
      if pattern.isPrefixOf (c :: cs) then
        replacement ++ replaceFrom pattern replacement (pattern.length - 1) cs
      else c :: replaceFrom pattern replacement 0 cs

/-- The text with every occurrence of a nonempty `pattern` replaced. -/
def replaceEach (pattern replacement cs : List Char) : List Char :=
  replaceFrom pattern replacement 0 cs

/-- A text from the texts in `parts` with `sep` between them. -/
def joinWith (sep : String) : List String → String
  | [] => ""
  | [s] => s
  | s :: parts => s ++ sep ++ joinWith sep parts

end SharpLint
