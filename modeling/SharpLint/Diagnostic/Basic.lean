import SharpLint.Document.Snapshot

/-!
# Diagnostics

A diagnostic is a message about a place in a document. Its wording is that of a descriptor, with the
arguments put into the holes.
-/

namespace SharpLint

/-- How bad a finding is, the least first. -/
inductive Severity where
  | info | warning | error
  deriving DecidableEq, Inhabited

namespace Severity

def all : List Severity := [.info, .warning, .error]

def name : Severity → String
  | .info => "info"
  | .warning => "warning"
  | .error => "error"

/-- Rank, higher for what is worse. -/
def rank : Severity → Nat
  | .info => 0
  | .warning => 1
  | .error => 2

def atLeast (s bound : Severity) : Bool := decide (bound.rank ≤ s.rank)

def ofName? (name : String) : Option Severity := all.find? (·.name == name)

end Severity

/-! ## Wording -/

/-- Wording of the diagnostics of a code. -/
structure Descriptor where
  code : String
  title : String
  /-- The message, with a hole such as `{0}` for each argument. -/
  format : String
  description : String
  deriving DecidableEq

/-- A text with the holes from number `i` on filled, one argument after the other. Holes in an
argument that is put in are filled by the arguments behind it. -/
def fillHoles (i : Nat) : List String → List Char → List Char
  | [], cs => cs
  | a :: as, cs =>
    fillHoles (i + 1) as (replaceEach (("\x7b" ++ toString i ++ "\x7d").toList) a.toList cs)

/-- The message with its arguments put in. -/
def Descriptor.message (d : Descriptor) (args : List String) : String :=
  String.ofList (fillHoles 0 args d.format.toList)

/-! ## Findings -/

/-- A place in a document. -/
structure Location where
  document : DocumentId
  span : Span
  position : Position
  deriving DecidableEq

/-- The place of a span in a document with the given text. -/
def Location.of (document : DocumentId) (text : List Char) (span : Span) : Location :=
  ⟨document, span, positionAt text span.start⟩

/-- A finding. -/
structure Diagnostic where
  code : String
  rule : String
  severity : Severity
  location : Location
  args : List String
  message : String
  help : Option String
  deriving DecidableEq

namespace Diagnostic

/-- `document:line:column` -/
def place (d : Diagnostic) : String :=
  d.location.document.spelling ++ ":" ++ d.location.position.render

/-- One line for the finding. -/
def line (d : Diagnostic) : String :=
  d.place ++ ": " ++ d.severity.name ++ " [" ++ d.code ++ "] " ++ d.message

/-- Several lines for the finding. -/
def block (d : Diagnostic) : String :=
  d.code ++ " " ++ d.rule ++ " at " ++ d.place ++ "\n  " ++ d.severity.name ++ ": " ++ d.message
    ++ "\n" ++ (d.help.map fun h => "  = help: " ++ h ++ "\n").getD ""

/-- Code and message, for a report that shows the source. -/
def headline (d : Diagnostic) : String := "[" ++ d.code ++ "] " ++ d.message

/-- By line, column and code. -/
def orderInDocument (a b : Diagnostic) : Ordering :=
  ((compare a.location.position.line b.location.position.line).then
    (compare a.location.position.column b.location.position.column)).then
    (compareText a.code b.code)

/-- By document, line, column and code. -/
def order (a b : Diagnostic) : Ordering :=
  (a.location.document.order b.location.document).then (a.orderInDocument b)

end Diagnostic

/-! ## Results of an analysis -/

/-- The findings of an analysis and the number of documents it looked at. -/
structure Report where
  diagnostics : List Diagnostic
  documentsChecked : Nat
  deriving DecidableEq

namespace Report

/-- Nothing was checked. -/
def empty : Report := ⟨[], 0⟩

/-- Number of findings of a severity. -/
def count (r : Report) (s : Severity) : Nat := r.diagnostics.countP (·.severity == s)

/-- Some finding is an error. -/
def hasErrors (r : Report) : Bool := r.diagnostics.any (·.severity == .error)

/-- Some finding is at least as bad as `bound`. -/
def reaches (r : Report) (bound : Severity) : Bool := r.diagnostics.any (·.severity.atLeast bound)

/-- The findings with a code. -/
def withCode (r : Report) (code : String) : List Diagnostic := r.diagnostics.filter (·.code == code)

/-- The findings of `r`, then those of `s`. -/
def append (r s : Report) : Report :=
  ⟨r.diagnostics ++ s.diagnostics, r.documentsChecked + s.documentsChecked⟩

end Report

end SharpLint
