import SharpLint.Diagnostic.Basic
import SharpLint.Text.CharClass

/-!
# Directives that allow a finding

A comment such as

    // numguard: allow(NG1002, floating-point-equality) reason="checked against epsilon"

silences findings on its own line and on the line below. An entry is a code, the name of a rule, or
`all`. Only the first pair of slashes of a line counts, wherever it stands.
-/

namespace SharpLint

/-- What a comment allows, and why. -/
structure Directive where
  entries : List String
  reason : Option String
  deriving DecidableEq

namespace Directive

/-- The directive applies to findings with this code or of this rule. -/
def covers (d : Directive) (code rule : String) : Bool :=
  d.entries.contains code || d.entries.contains rule || d.entries.contains "all"

/-- What follows a given beginning, without outer blanks. -/
def trimmedAfter? (start : String) (cs : List Char) : Option (List Char) :=
  (after? start.toList cs).map trim

/-- The entries of a list with commas, each once, empty ones left out. -/
def entriesOf (cs : List Char) : List String :=
  ((((splitAtEach ',' cs).map trim).filter (!·.isEmpty)).map String.ofList).eraseDups

/-- The reason given behind the list of entries. -/
def reasonOf? (cs : List Char) : Option String := do
  let value ← trimmedAfter? "reason=" (trim cs)
  let quoted ← after? ['"'] value
  let (reason, _) ← around? ['"'] quoted
  pure (String.ofList reason)

/-- The directive in a comment, its slashes included. -/
def ofComment? (comment : List Char) : Option Directive := do
  let body ← trimmedAfter? "numguard:" (trim (comment.dropWhile (· == '/')))
  let list ← trimmedAfter? "allow(" body
  let (inside, rest) ← around? [')'] list
  match entriesOf inside with
  | [] => none
  | entries => pure ⟨entries, reasonOf? rest⟩

/-- The directive on a line of source text. -/
def ofLine? (line : List Char) : Option Directive :=
  (around? ['/', '/'] line).bind fun (_, rest) => ofComment? rest

end Directive

/-- The directive that silences a finding on a line: one on the line itself, else one on the line
above. -/
def allowedBy? (text : List Char) (line : Nat) (code rule : String) : Option Directive :=
  [line, line - 1].findSome? fun candidate =>
    ((lineText? text candidate).bind Directive.ofLine?).filter (·.covers code rule)

end SharpLint
