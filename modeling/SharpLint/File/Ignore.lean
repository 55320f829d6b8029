import SharpLint.File.Path
import SharpLint.File.Pattern
import SharpLint.Text.CharClass

/-!
# Ignore files

Lists of patterns, one on a line, that say which files a search leaves out. Of the patterns of a
file the last that matches counts, of the files the one in the deepest directory. A pattern without a
slash inside matches at any depth, one with a slash behind matches directories only, and an
exclamation mark in front takes files back in.

`.ignore` files always count. `.gitignore` files, the repository's own list and the user's list count
in a repository only, and the first two only inside the innermost one.
-/

namespace SharpLint

/-! ## Rules -/

/-- A line of an ignore file. -/
structure IgnoreRule where
  pieces : List IgnorePiece
  /-- The line takes files back in. -/
  isException : Bool
  onlyDirectories : Bool

/-- A line that is not understood. -/
structure IgnoreFault where
  /-- Number of the line, from one on. -/
  line : Nat
  text : String
  fault : PatternFault
  deriving DecidableEq

/-- Text of the fault, which is in the file with the given path. -/
def IgnoreFault.message (path : String) (f : IgnoreFault) : String :=
  path ++ ": line " ++ toString f.line ++ ": error parsing glob '" ++ f.text ++ "': " ++ f.fault.message

/-- The text of a pattern as it is matched against whole paths. -/
def anchoredPattern (anchored : Bool) (cs : List Char) : List Char :=
  let anywhere := !anchored && !cs.contains '/' && cs != ['*', '*']
  let cs := if anywhere then ['*', '*', '/'] ++ cs else cs
  if ['/', '*', '*'].isSuffixOf cs then cs ++ ['/', '*'] else cs

/-- The rule of a pattern whose marks in front are read. -/
def IgnoreRule.ofPattern (isException anchored : Bool) (cs : List Char) :
    Except PatternFault IgnoreRule := do
  let onlyDirectories := cs.getLast? == some '/'
  let cs := if onlyDirectories then cs.dropLast else cs
  let cs := if onlyDirectories && cs.getLast? == some '\\' then cs.dropLast else cs
  pure ⟨← ignorePieces (anchoredPattern anchored cs), isException, onlyDirectories⟩

/-- The rule of a line without blanks behind. -/
def IgnoreRule.ofText : List Char → Except PatternFault IgnoreRule
  | '\\' :: '!' :: rest => ofPattern false false ('!' :: rest)
  | '\\' :: '#' :: rest => ofPattern false false ('#' :: rest)
  | '!' :: '/' :: rest => ofPattern true true rest
  | '!' :: rest => ofPattern true false rest
  | '/' :: rest => ofPattern false true rest
  | cs => ofPattern false false cs

/-- The text of a line that counts; comments and empty lines have none. Blanks at the end do not
count, unless the last is behind a backslash. -/
def ruleText? (line : List Char) : Option (List Char) :=
  let cs := if ['\\', ' '].isSuffixOf line then line else trimEnd line
  if line.head? == some '#' || cs.isEmpty then none else some cs

/-- What an ignore file says. -/
structure IgnoreList where
  rules : List IgnoreRule
  faults : List IgnoreFault

namespace IgnoreList

/-- No file. -/
def empty : IgnoreList := ⟨[], []⟩

/-- With a line added behind. -/
def add (list : IgnoreList) (number : Nat) (line : List Char) : IgnoreList :=
  match ruleText? line with
  | none => list
  | some cs =>
    match IgnoreRule.ofText cs with
    | .ok rule => { list with rules := list.rules ++ [rule] }
    | .error fault => { list with faults := list.faults ++ [⟨number, String.ofList cs, fault⟩] }

/-- With lines added behind, the first of them with the given number. -/
def addAll (list : IgnoreList) (number : Nat) : List (List Char) → IgnoreList
  | [] => list
  | line :: lines => (list.add number line).addAll (number + 1) lines

end IgnoreList

/-- The lines of a text. A carriage return in front of a line feed belongs to the line's end. -/
def fileLines : List (List Char) → List (List Char)
  | [] | [[]] => []
  | [last] => [last]
  | line :: lines => (beforeEnd? ['\r'] line).getD line :: fileLines lines

/-- What an ignore file with the given text says. Byte order marks in front do not count. -/
def IgnoreList.ofText (text : String) : IgnoreList :=
  match fileLines (splitAtEach '\n' text.toList) with
  | [] => empty
  | first :: lines => empty.addAll 1 (first.dropWhile (· == '\ufeff') :: lines)

/-! ## Verdicts -/

/-- What the last rule that matches says: left out, or taken back in. -/
def ignoreVerdict? (rules : List IgnoreRule) (path : String) (isDirectory : Bool) : Option Bool :=
  let bytes := utf8Bytes path.toList
  let applies (r : IgnoreRule) : Bool :=
    (isDirectory || !r.onlyDirectories) && acceptsPath r.pieces bytes
  (rules.reverse.find? applies).map (!·.isException)

/-- A path as seen from the directory `root`. Both are compared as they are written. -/
def pathSeenFrom (root path : String) : String :=
  let path := withoutDotSlash path
  let root := withoutDotSlash root
  if isDotPath root || !path.toList.contains '/' then path
  else
    match after? root.toList path.toList with
    | none => path
    | some rest => withoutStart "/" (String.ofList rest)

/-- The ignore files of a directory. -/
structure IgnoreLevel where
  /-- Path of the directory. -/
  root : String
  /-- A repository starts here. -/
  isRepository : Bool
  plain : List IgnoreRule
  git : List IgnoreRule
  exclude : List IgnoreRule

/-- The levels up to the innermost repository. -/
def insideRepository {α : Type} (level : α → IgnoreLevel) : List α → List α
  | [] => []
  | l :: ls => if (level l).isRepository then [l] else l :: insideRepository level ls

/-- All ignore files that a search looks at. -/
structure IgnoreScope where
  /-- Where the search started, as it was written. -/
  start : String
  /-- Absolute path of the start. -/
  base : String
  /-- The levels from the directory at hand up to the start. -/
  below : List IgnoreLevel
  /-- The levels above the start, the deepest first. Their directories are absolute paths. -/
  above : List IgnoreLevel
  /-- The working directory, from which the user's list sees paths. -/
  workplace : String
  /-- The user's own list. -/
  user : List IgnoreRule

namespace IgnoreScope

def absolute (s : IgnoreScope) (path : String) : String :=
  if isDotPath s.start then joinPath s.base path
  else joinPath s.base (withoutStart "/" (withoutStart (withoutDotSlash s.start) path))

/-- A file or directory below the start is left out. -/
def ignores (s : IgnoreScope) (path : String) (isDirectory : Bool) : Bool :=
  let path := withoutDotSlash path
  let levels := s.below.map (·, path) ++ s.above.map (·, s.absolute path)
  let ask (rules : IgnoreLevel → List IgnoreRule) (levels : List (IgnoreLevel × String)) : Option Bool :=
    levels.findSome? fun (l, path) => ignoreVerdict? (rules l) (pathSeenFrom l.root path) isDirectory
  let inRepository := levels.any (·.1.isRepository)
  let inner := if inRepository then insideRepository Prod.fst levels else []
  let user := if inRepository then
      ignoreVerdict? s.user (pathSeenFrom s.workplace path) isDirectory
    else none
  ((((ask IgnoreLevel.plain levels).or (ask IgnoreLevel.git inner)).or
    (ask IgnoreLevel.exclude inner)).or user).getD false

end IgnoreScope

end SharpLint
