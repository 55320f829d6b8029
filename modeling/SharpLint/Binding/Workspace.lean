import SharpLint.Binding.Scope
import SharpLint.Grammar.Parse

/-!
# Workspaces

A snapshot with the names of all its documents bound.
-/

namespace SharpLint

/-- A fault in a named document. -/
structure DocumentError where
  document : DocumentId
  cause : ParseError
  deriving DecidableEq

def DocumentError.message (e : DocumentError) : String :=
  e.document.spelling ++ ": " ++ e.cause.message

def Document.parse (id : DocumentId) (text : String) : Except DocumentError Document :=
  match SharpLint.parse text with
  | .ok root => .ok ⟨id, root⟩
  | .error e => .error ⟨id, e⟩

/-- The snapshot of source texts; the first text that cannot be read is reported. -/
def Snapshot.ofSources (sources : List (String × String)) : Except DocumentError Snapshot :=
  sources.foldlM (fun s (path, text) => (Document.parse ⟨path⟩ text).map s.insert) .empty

/-- The names of one document. -/
structure DocumentScope where
  document : DocumentId
  scope : Scope

/-- A snapshot and its names. -/
structure Workspace where
  snapshot : Snapshot
  table : SymbolTable
  scopes : List DocumentScope

namespace Workspace

/-- The names of a snapshot. -/
def ofSnapshot (s : Snapshot) : Workspace :=
  let table := SymbolTable.ofSnapshot s
  ⟨s, table, s.documents.map fun d => ⟨d.id, .ofDocument table d⟩⟩

def ofSources (sources : List (String × String)) : Except DocumentError Workspace :=
  (Snapshot.ofSources sources).map ofSnapshot

def scope? (w : Workspace) (document : DocumentId) : Option Scope :=
  (w.scopes.find? (·.document.same document)).map DocumentScope.scope

/-- What the workspace knows, as the engine asks for it. -/
def host (w : Workspace) : Host :=
  ⟨fun document => (w.scope? document).map Scope.bindings, w.table.declarationsOf⟩

end Workspace

end SharpLint
