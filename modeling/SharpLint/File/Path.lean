import SharpLint.Document.Id

/-!
# Paths as texts

Paths are joined and taken apart as texts, since messages show them as they were written.
-/

namespace SharpLint

/-- The path starts at the root. -/
def isAbsolutePath (path : String) : Bool := path.toList.head? == some '/'

/-- A path below `base`; an absolute path stands for itself. -/
def joinPath (base path : String) : String :=
  if isAbsolutePath path || base.isEmpty then path
  else if base.toList.getLast? == some '/' then base ++ path
  else base ++ "/" ++ path

/-- The path is a dot, or spelled like one. -/
def isDotPath (path : String) : Bool := pathParts path == [.current]

/-- The texts between the slashes of a path, up to the last that is a part of the path, in reverse.
Empty texts and dots are no parts, except for a dot in front. -/
def piecesToLastPart (pieces : List String) : List String :=
  pieces.reverse.dropWhile fun piece => (PathPart.ofInner? piece).isNone

/-- The path without its last part, spelled as it was; the root and the empty path have none. -/
def parentPath? (path : String) : Option String :=
  let pieces := (splitAtEach '/' path.toList).map String.ofList
  let above := (piecesToLastPart pieces).tail.reverse
  match (pathParts path).reverse with
  | [] | [.root] => none
  | [_] => some ""
  | [_, .root] => some "/"
  | [_, .current] => some "."
  | _ => some (joinWith "/" (piecesToLastPart above).reverse)

/-- A path and at most `fuel` paths above it, each without the last part of the one before. -/
def pathAndParents : Nat → String → List String
  | 0, path => [path]
  | fuel + 1, path => path :: (parentPath? path).elim [] (pathAndParents fuel)

/-- A path and all paths above it. -/
def ancestorPaths (path : String) : List String := pathAndParents (pathParts path).length path

/-- The names of a path, links to the parent and the like left out. -/
def pathNames (path : String) : List String :=
  (pathParts path).filterMap fun
    | .name text => some text
    | _ => none

/-- What follows `start` in the text of a path; the path itself if it begins otherwise. -/
def withoutStart (start path : String) : String :=
  ((after? start.toList path.toList).map String.ofList).getD path

/-- A path without a dot and a slash in front. -/
def withoutDotSlash (path : String) : String := withoutStart "./" path

/-- The part of a file's name behind its last dot. A dot in front of the name does not count. -/
def extension? (name : String) : Option String :=
  match splitAtEach '.' name.toList with
  | [] | [_] => none
  | first :: others =>
    if first.isEmpty && others.length == 1 then none else others.getLast?.map String.ofList

end SharpLint
