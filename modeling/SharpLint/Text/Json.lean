import SharpLint.Text.Search

/-!
# Structured output

Values written over several lines, with two spaces for each level. Empty lists and objects stay on
one line.
-/

namespace SharpLint

/-- A value to be written. -/
inductive JsonText where
  | string (text : String)
  | number (n : Nat)
  | list (items : List JsonText)
  | object (fields : List (String × JsonText))

namespace JsonText

/-- A code point below 32 with four hexadecimal digits. -/
def unicodeEscape (n : Nat) : List Char :=
  let digit (d : Nat) : Char := Char.ofNat (if d < 10 then 48 + d else 87 + d)
  ['\\', 'u', '0', '0', digit (n / 16), digit (n % 16)]

/-- A character inside quotes. -/
def escape (c : Char) : List Char :=
  if c = '"' then ['\\', '"']
  else if c = '\\' then ['\\', '\\']
  else if c = '\n' then ['\\', 'n']
  else if c = '\r' then ['\\', 'r']
  else if c = '\t' then ['\\', 't']
  else if c = '\x08' then ['\\', 'b']
  else if c = '\x0c' then ['\\', 'f']
  else if c.toNat < 32 then unicodeEscape c.toNat
  else [c]

def quote (text : String) : String := String.ofList (['"'] ++ text.toList.flatMap escape ++ ['"'])

/-- A line break with the indentation of a level. -/
def newLine (level : Nat) : String := "\n" ++ String.ofList (List.replicate (2 * level) ' ')

/-- Items on lines of their own between two marks. -/
def enclose (first last : String) (level : Nat) (items : List String) : String :=
  if items.isEmpty then first ++ last
  else first ++ newLine (level + 1) ++ joinWith ("," ++ newLine (level + 1)) items ++ newLine level ++ last

mutual

def renderAt (level : Nat) : JsonText → String
  | .string text => quote text
  | .number n => toString n
  | .list items => enclose "[" "]" level (renderItems (level + 1) items)
  | .object fields => enclose "\x7b" "\x7d" level (renderFields (level + 1) fields)

def renderItems (level : Nat) : List JsonText → List String
  | [] => []
  | v :: vs => renderAt level v :: renderItems level vs

def renderFields (level : Nat) : List (String × JsonText) → List String
  | [] => []
  | (key, v) :: fields => (quote key ++ ": " ++ renderAt level v) :: renderFields level fields

end

/-- The text of a value. -/
def render (v : JsonText) : String := v.renderAt 0

end JsonText

end SharpLint
