import SharpLint.Toml.Number
import SharpLint.Toml.Value

/-!
# Configuration files

`Toml.parse?` reads a file into the entries of its outermost table, and gives `none` when the file
is not well formed or defines something twice.
-/

namespace SharpLint.Toml

/-! ## Values -/

def isWordChar (c : Char) : Bool := isKeyChar c || c == '+' || c == '.' || c == ':'

/-- The value that a bare word spells. -/
def wordValue? (cs : List Char) : Option Value :=
  if cs = "true".toList then some (.boolean true)
  else if cs = "false".toList then some (.boolean false)
  else if isFloat cs then some (.float (String.ofList cs))
  else ((Date.ofWord? cs).map Value.date).or ((integer? cs).map Value.integer)

/-- A day and the time of day behind one space, with the rest. -/
def spacedDate? (day : List Char) : List Char → Option (Date × List Char)
  | ' ' :: cs =>
    let time := cs.takeWhile isWordChar
    (Date.ofWord? (day ++ ' ' :: time)).map fun d => (d, cs.dropWhile isWordChar)
  | _ => none

/-- A bare word. It reaches as far as its characters go, and is told by its whole spelling; only a
date may have a space in it. -/
def word? (cs : List Char) : Option (Value × List Char) :=
  let word := cs.takeWhile isWordChar
  let rest := cs.dropWhile isWordChar
  match spacedDate? word rest with
  | some (d, rest) => some (.date d, rest)
  | none => (wordValue? word).map fun v => (v, rest)

/-- The values of an array and what follows its bracket. -/
def arrayItems? (item : List Char → Option (Value × List Char)) :
    Nat → List Char → Option (List Value × List Char)
  | 0, _ => none
  | fuel + 1, cs =>
    match skipLines cs.length cs with
    | ']' :: rest => some ([], rest)
    | cs => do
      let (v, rest) ← item cs
      match skipLines rest.length rest with
      | ',' :: rest =>
        let (vs, rest) ← arrayItems? item fuel rest
        pure (v :: vs, rest)
      | ']' :: rest => pure ([v], rest)
      | _ => none

/-- The entries of a table in braces, added to `t`, and what follows its brace. -/
def bracesEntries? (item : List Char → Option (Value × List Char)) :
    Nat → Entries → List Char → Option (Entries × List Char)
  | 0, _, _ => none
  | fuel + 1, t, cs => do
    let (path, key, rest) ← key? cs
    let rest ← after? ['='] rest
    let (v, rest) ← item (skipBlanks rest)
    let t ← t.putDotted? path key v
    match skipBlanks rest with
    | ',' :: rest => bracesEntries? item fuel t rest
    | '}' :: rest => pure (t, rest)
    | _ => none

/-- A value in which arrays and tables are nested at most `depth` deep. -/
def value? : Nat → List Char → Option (Value × List Char)
  | _, '"' :: cs => (string? '"' cs).map fun (s, rest) => (.string s, rest)
  | _, '\'' :: cs => (string? '\'' cs).map fun (s, rest) => (.string s, rest)
  | 0, '[' :: _ => none
  | 0, '{' :: _ => none
  | depth + 1, '[' :: cs =>
    (arrayItems? (value? depth) (cs.length + 1) cs).map fun (vs, rest) => (.array vs, rest)
  | depth + 1, '{' :: cs =>
    match skipBlanks cs with
    | '}' :: rest => some (.table .braces [], rest)
    | cs =>
      (bracesEntries? (value? depth) (cs.length + 1) [] cs).map fun (t, rest) =>
        (.table .braces t, rest)
  | _, cs => word? cs

/-! ## Lines -/

/-- The outermost table so far, and the keys of the table that lines are added to. -/
structure Draft where
  root : Entries
  current : List String

namespace Draft

/-- With a key-value line added to the current table. -/
def put? (d : Draft) (path : List String) (key : String) (v : Value) : Option Draft :=
  (Entries.update? false (fun _ t => t.putDotted? path key v) d.current .header d.root).map
    fun root => { d with root := root }

/-- With the table of a header made the current one. -/
def openTable? (d : Draft) (path : List String) (key : String) : Option Draft :=
  (d.root.openTable? path key).map fun root => ⟨root, path ++ [key]⟩

/-- With one more table under a header in double brackets, made the current one. -/
def openElement? (d : Draft) (path : List String) (key : String) : Option Draft :=
  (d.root.openElement? path key).map fun root => ⟨root, path ++ [key]⟩

end Draft

/-- A header, a key-value line or an empty line, and the lines behind it. -/
def line? (d : Draft) (cs : List Char) : Option (Draft × List Char) :=
  match cs with
  | '#' :: _ | '\n' :: _ | '\r' :: _ => (nextLine? cs).map fun rest => (d, rest)
  | '[' :: '[' :: cs => do
    let (path, key, rest) ← key? cs
    let rest ← after? [']', ']'] rest
    let rest ← nextLine? rest
    let d ← d.openElement? path key
    pure (d, rest)
  | '[' :: cs => do
    let (path, key, rest) ← key? cs
    let rest ← after? [']'] rest
    let rest ← nextLine? rest
    let d ← d.openTable? path key
    pure (d, rest)
  | cs => do
    let (path, key, rest) ← key? cs
    let rest ← after? ['='] rest
    let (v, rest) ← value? (depthLimit - 1) (skipBlanks rest)
    let rest ← nextLine? rest
    let d ← d.put? path key v
    pure (d, rest)

/-- The entries of a text of at most `fuel` lines. -/
def lines? : Nat → Draft → List Char → Option Entries
  | 0, _, _ => none
  | fuel + 1, d, cs =>
    match skipBlanks cs with
    | [] => some d.root
    | cs => do
      let (d, rest) ← line? d cs
      lines? fuel d rest

/-- The entries of a file. A byte order mark in front is left out. -/
def parse? (text : String) : Option Entries :=
  let cs := match text.toList with
    | '\ufeff' :: cs => cs
    | cs => cs
  lines? (cs.length + 1) ⟨[], []⟩ cs

end SharpLint.Toml
