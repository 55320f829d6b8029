import SharpLint.Text.Search

/-!
# Strings and keys of a configuration file

Readers take the remaining characters and give what they read with the rest. `none` means that the
text is not well formed.
-/

namespace SharpLint.Toml

/-! ## Blanks, comments, line ends -/

/-- A space or a tab. -/
def isGap (c : Char) : Bool := c == ' ' || c == '\t'

/-- Without spaces and tabs at the front. -/
def skipBlanks (cs : List Char) : List Char := cs.dropWhile isGap

/-- A character that a comment may hold: a tab, or no control character. -/
def isTextChar (c : Char) : Bool := c == '\t' || (decide (32 ≤ c.toNat) && c.toNat != 127)

def afterLineEnd? : List Char → Option (List Char)
  | '\n' :: cs => some cs
  | '\r' :: '\n' :: cs => some cs
  | _ => none

/-- Without a comment at the front. -/
def skipComment : List Char → List Char
  | '#' :: cs => cs.dropWhile isTextChar
  | cs => cs

/-- The next line, when only blanks and a comment are left on this one. -/
def nextLine? (cs : List Char) : Option (List Char) :=
  match skipComment (skipBlanks cs) with
  | [] => some []
  | rest => afterLineEnd? rest

/-- Without blanks, comments and line ends at the front, at most `fuel` lines of them. -/
def skipLines : Nat → List Char → List Char
  | 0, cs => cs
  | fuel + 1, cs =>
    let rest := skipBlanks cs
    match afterLineEnd? (skipComment rest) with
    | some next => skipLines fuel next
    | none => rest

/-- Without spaces, tabs and line ends at the front. -/
def skipSpace : List Char → List Char
  | ' ' :: cs => skipSpace cs
  | '\t' :: cs => skipSpace cs
  | '\n' :: cs => skipSpace cs
  | '\r' :: '\n' :: cs => skipSpace cs
  | cs => cs

/-! ## Strings -/

/-- Value of a hexadecimal digit. -/
def hexDigit? (c : Char) : Option Nat :=
  if '0' ≤ c ∧ c ≤ '9' then some (c.toNat - 48)
  else if 'a' ≤ c ∧ c ≤ 'f' then some (c.toNat - 87)
  else if 'A' ≤ c ∧ c ≤ 'F' then some (c.toNat - 55)
  else none

/-- Value of a number by its digits. -/
def ofDigits (base : Nat) (digits : List Nat) : Nat := digits.foldl (fun n d => base * n + d) 0

/-- The character with the code point given by the next `count` hexadecimal digits. -/
def codePoint? (count : Nat) (cs : List Char) : Option (Char × List Char) :=
  match (cs.take count).mapM hexDigit? with
  | none => none
  | some digits =>
    let code := ofDigits 16 digits
    if digits.length = count ∧ code.isValidChar then some (Char.ofNat code, cs.drop count) else none

/-- The character that an escape stands for, its backslash already read. -/
def escape? : List Char → Option (Char × List Char)
  | 'b' :: cs => some ('\x08', cs)
  | 't' :: cs => some ('\t', cs)
  | 'n' :: cs => some ('\n', cs)
  | 'f' :: cs => some ('\x0c', cs)
  | 'r' :: cs => some ('\r', cs)
  | '"' :: cs => some ('"', cs)
  | '\\' :: cs => some ('\\', cs)
  | 'u' :: cs => codePoint? 4 cs
  | 'U' :: cs => codePoint? 8 cs
  | _ => none

/-- The inside of a string between `quote`s on one line, up to `fuel` characters. Only double quotes
admit escapes. -/
def lineString? (quote : Char) : Nat → List Char → Option (List Char × List Char)
  | 0, _ => none
  | _ + 1, [] => none
  | fuel + 1, c :: cs =>
    if c = quote then some ([], cs)
    else if c = '\\' && quote == '"' then do
      let (d, rest) ← escape? cs
      let (text, rest) ← lineString? quote fuel rest
      pure (d :: text, rest)
    else if isTextChar c then
      (lineString? quote fuel cs).map fun (text, rest) => (c :: text, rest)
    else none

/-- The next line with text, when only blanks are left behind a backslash. -/
def afterContinuation? (cs : List Char) : Option (List Char) :=
  (afterLineEnd? (skipBlanks cs)).map skipSpace

/-- The inside of a string between three `quote`s, up to `fuel` characters. One or two quotes
directly before the closing three belong to the text. -/
def blockString? (quote : Char) : Nat → List Char → Option (List Char × List Char)
  | 0, _ => none
  | _ + 1, [] => none
  | fuel + 1, c :: cs =>
    let run := ((c :: cs).takeWhile (· == quote)).length
    if 3 ≤ run then
      let inner := min (run - 3) 2
      some (List.replicate inner quote, (c :: cs).drop (inner + 3))
    else if c = '\\' && quote == '"' then
      match afterContinuation? cs with
      | some rest => blockString? quote fuel rest
      | none => do
        let (d, rest) ← escape? cs
        let (text, rest) ← blockString? quote fuel rest
        pure (d :: text, rest)
    else
      match afterLineEnd? (c :: cs) with
      | some rest => (blockString? quote fuel rest).map fun (text, rest) => ('\n' :: text, rest)
      | none =>
        if isTextChar c then
          (blockString? quote fuel cs).map fun (text, rest) => (c :: text, rest)
        else none

/-- A string behind its first `quote`. A line end directly behind three quotes is left out. -/
def string? (quote : Char) (cs : List Char) : Option (String × List Char) :=
  let read := match cs with
    | a :: b :: rest =>
      if a = quote ∧ b = quote then
        let body := (afterLineEnd? rest).getD rest
        blockString? quote (body.length + 1) body
      else lineString? quote (cs.length + 1) cs
    | _ => lineString? quote (cs.length + 1) cs
  read.map fun (text, rest) => (String.ofList text, rest)

/-! ## Keys -/

/-- A character of a key without quotes. -/
def isKeyChar (c : Char) : Bool :=
  decide ('a' ≤ c ∧ c ≤ 'z') || decide ('A' ≤ c ∧ c ≤ 'Z') || decide ('0' ≤ c ∧ c ≤ '9')
    || c == '-' || c == '_'

/-- A key without dots. -/
def simpleKey? : List Char → Option (String × List Char)
  | '"' :: cs => (lineString? '"' (cs.length + 1) cs).map fun (k, rest) => (String.ofList k, rest)
  | '\'' :: cs => (lineString? '\'' (cs.length + 1) cs).map fun (k, rest) => (String.ofList k, rest)
  | cs =>
    match cs.takeWhile isKeyChar with
    | [] => none
    | key => some (String.ofList key, cs.dropWhile isKeyChar)

/-- The parts of a dotted key, at most `fuel` of them. -/
def keyParts? : Nat → List Char → Option (List String × List Char)
  | 0, _ => none
  | fuel + 1, cs => do
    let (part, rest) ← simpleKey? (skipBlanks cs)
    match skipBlanks rest with
    | '.' :: rest =>
      let (parts, rest) ← keyParts? fuel rest
      pure (part :: parts, rest)
    | rest => pure ([part], rest)

/-- A key may have fewer parts than this, and values may be nested less deeply. -/
def depthLimit : Nat := 80

/-- A key: the parts in front, and the last. -/
def key? (cs : List Char) : Option (List String × String × List Char) := do
  let (parts, rest) ← keyParts? (depthLimit - 1) cs
  let last ← parts.getLast?
  pure (parts.dropLast, last, rest)

end SharpLint.Toml
