import SharpLint.File.Access
import SharpLint.File.Ignore

/-!
# The user's ignore list

The list of a user is named by the entry `excludesfile` of `.gitconfig` in the home directory, else
of `git/config` in the directory for configurations, else it is `git/ignore` in that directory.
Sections of these files do not matter: the first line that reads as the entry counts.
-/

namespace SharpLint

/-- Where a user keeps files. -/
structure UserPlaces where
  home : Option String
  /-- The directory for configurations, if it is not `.config` in the home directory. -/
  configurations : Option String

def UserPlaces.configurationPath? (u : UserPlaces) : Option String :=
  (u.configurations.filter (!·.isEmpty)).or (u.home.map (joinPath · ".config"))

/-! ## The entry -/

/-- Blank space of a configuration file. -/
def isConfigBlank (c : Char) : Bool := c == ' ' || ('\t' ≤ c && c ≤ '\r')

/-- Blanks to the end of a line or of the text. -/
def endsLine (cs : List Char) : Bool :=
  let (blanks, rest) := cs.span isConfigBlank
  blanks.contains '\n' || rest.isEmpty

/-- What follows a value: blanks, perhaps a quote, blanks, and the end of a line. -/
def endsValue (cs : List Char) : Bool :=
  endsLine cs || match cs.dropWhile isConfigBlank with
    | '"' :: rest => endsLine rest
    | _ => false

/-- The shortest text without blanks behind which a value can end, `n` characters already read. -/
def valueLength? (n : Nat) : List Char → Option Nat
  | [] => none
  | c :: cs =>
    if isConfigBlank c then none
    else if endsValue cs then some (n + 1)
    else valueLength? (n + 1) cs

/-- The value in front, with blanks before it. -/
def valueAhead? (cs : List Char) : Option (List Char) :=
  let cs := cs.dropWhile isConfigBlank
  (valueLength? 0 cs).map cs.take

/-- The value behind the equals sign, in quotes or without. -/
def quotedValue? (cs : List Char) : Option (List Char) :=
  match cs.dropWhile isConfigBlank with
  | '"' :: rest => (valueAhead? rest).or (valueAhead? cs)
  | _ => valueAhead? cs

/-- What follows a word in front, in capitals or not. -/
def afterWord? (word cs : List Char) : Option (List Char) :=
  if (cs.take word.length).map Char.toLower == word then some (cs.drop word.length) else none

/-- The value of the entry, if the text starts with it. -/
def entryAhead? (cs : List Char) : Option (List Char) := do
  let cs ← afterWord? "excludesfile".toList (cs.dropWhile isConfigBlank)
  match cs.dropWhile isConfigBlank with
  | '=' :: rest => quotedValue? rest
  | _ => none

/-- The value of the first line that reads as the entry; `fresh` tells that a line starts here. -/
def excludesValue? (fresh : Bool) : List Char → Option (List Char)
  | [] => none
  | c :: cs =>
    match if fresh then entryAhead? (c :: cs) else none with
    | some value => some value
    | none => excludesValue? (c == '\n') cs

/-- The path that a configuration file names. A tilde stands for the home directory. -/
def excludesPath? (home : Option String) (text : String) : Option String :=
  (excludesValue? true text.toList).map fun value =>
    match home with
    | none => String.ofList value
    | some home => String.ofList (replaceEach ['~'] home.toList value)

/-! ## The list -/

variable {m : Type → Type} [Monad m]

/-- The path that a configuration file names, if there is such a file. -/
def readExcludesPath (fs : FileAccess m) (home file : Option String) : m (Option String) := do
  match file with
  | none => pure none
  | some file => pure ((← fs.read file).bind (excludesPath? home))

/-- Path of the user's list. -/
def userIgnorePath (fs : FileAccess m) (u : UserPlaces) : m (Option String) := do
  match ← readExcludesPath fs u.home (u.home.map (joinPath · ".gitconfig")) with
  | some path => pure (some path)
  | none =>
    match ← readExcludesPath fs u.home (u.configurationPath?.map (joinPath · "git/config")) with
    | some path => pure (some path)
    | none => pure (u.configurationPath?.map (joinPath · "git/ignore"))

def readUserIgnore (fs : FileAccess m) (u : UserPlaces) : m (List IgnoreRule) := do
  match ← userIgnorePath fs u with
  | none => pure []
  | some path => pure (((← fs.read path).map fun text => (IgnoreList.ofText text).rules).getD [])

end SharpLint
