import SharpLint.Change.Fix
import SharpLint.Rule.SupportNamespace
import SharpLint.Tree.Build

/-!
# Fix: make a type internal

Every declaration of the type is changed, in all documents. Modifiers for accessibility are dropped
and `internal` comes first; it takes over the trivia before the first modifier and the trivia behind
the first one dropped.
-/

namespace SharpLint.Repair.Visibility

def isAccessibility (t : Token) : Bool := t.kind.keyword?.any Keyword.isAccessibility

def tokensAmong (children : List Tree) : List Token :=
  children.filterMap fun
    | .token t => some t
    | .node _ _ => none

/-- The trees with the leading trivia of the first one, a token, removed, and those trivia. -/
def takeLeading? : List Tree → Option (List Trivia × List Tree)
  | .token t :: rest => some (t.leading, .token { t with leading := [] } :: rest)
  | _ => none

def internalFirst (leading : List Trivia) (modifiers : List Token) : List Token :=
  let trailing := ((modifiers.find? isAccessibility).map Token.trailing).getD [.space]
  let stripped := match modifiers with
    | [] => []
    | first :: others => { first with leading := [] } :: others
  { Token.ofKind (.keyword .kwInternal) with leading := leading, trailing := trailing }
    :: stripped.filter (!isAccessibility ·)

/-- The children of a type declaration with the modifiers changed. -/
def internalChildren? : List Tree → Option (List Tree)
  | [] => none
  | .node .modifierList list :: rest =>
    match tokensAmong list with
    | [] => (takeLeading? rest).map fun (leading, rest) =>
        Build.modifierList (internalFirst leading []) :: rest
    | first :: others => some (Build.modifierList (internalFirst first.leading (first :: others)) :: rest)
  | child :: rest => (internalChildren? rest).map (child :: ·)

/-- A type declaration made internal. -/
def withInternal? (declaration : Node) : Option Tree :=
  (internalChildren? declaration.children).map (.node declaration.kind)

/-! ## The fix -/

def edit? (s : Snapshot) (d : DeclarationRef) : Option Edit := do
  let document ← s.find? d.document
  let node ← (document.rootNode.findNode? d.span d.kind).filter (·.kind.isTypeDeclaration)
  let replacement ← withInternal? node
  pure (.ofNode node replacement)

/-- The edits of all declarations; those that cannot be edited are marked. -/
def changes (declarations : List DeclarationRef) (s : Snapshot) : ChangeSet :=
  declarations.foldl
    (fun c d => match edit? s d with
      | some e => c.add d.document e
      | none => c.markUnresolved d)
    .empty

/-- Fixes with this key do the same at different sites. -/
def key : String := "MakeDeclarationInternal"

def propose? (s : Snapshot) (host : Host) (d : Diagnostic) : Option Fix := do
  let document := d.location.document
  let node ← (← s.reportedNode? d) |> fun n => if n.kind.isTypeDeclaration then some n else none
  let name ← node.typeName?
  let symbol ← (← host.bindings? document).declaredSymbol? node
  let declarations := match host.declarationsOf symbol with
    | [] => [⟨document, node.span, node.kind⟩]
    | found => found
  pure ⟨"Make " ++ name.token.text ++ " internal", key, document,
    fun s => .ok (changes declarations s)⟩

def provider : Provider where
  name := "RestrictedNamespacePublicTypesFix"
  codes := [Rule.SupportNamespace.descriptor.code]
  inBatches := true
  propose := fun s host d => (propose? s host d).toList

end SharpLint.Repair.Visibility
