import SharpLint.Rule.Basic
import SharpLint.Tree.View

/-!
# Public types in a support namespace

Types directly inside a namespace whose name has a given beginning should not be public.
-/

namespace SharpLint.Rule.SupportNamespace

/-- Wording. -/
def descriptor : Descriptor where
  code := "NG1005"
  title := "Public type in a support namespace"
  format := "\x7b0\x7d '\x7b1\x7d' is public in a support namespace"
  description := "Types in support namespaces should be internal"

/-- What a declaration is called in messages. -/
def label : NodeKind → String
  | .classDeclaration => "Class"
  | .structDeclaration => "Struct"
  | .interfaceDeclaration => "Interface"
  | .enumDeclaration => "Enum"
  | .recordDeclaration => "Record"
  | .recordStructDeclaration => "Record struct"
  | .delegateDeclaration => "Delegate"
  | _ => "Type"

/-- The beginning of the names of support namespaces, unless the configuration gives another. -/
def defaultStart : String := "Lucene.Net.Support"

/-- The node stands directly inside a namespace whose name begins with `start`. -/
def isInside (start : String) (n : Node) : Bool :=
  (n.parent?.filter (·.kind.isNamespaceDeclaration)).any fun p =>
    p.namespaceName?.any fun name => start.toList.isPrefixOf name.text.toList

/-- The node declares a public type in a support namespace. -/
def isExposed (start : String) (n : Node) : Bool :=
  isInside start n && n.kind.isTypeDeclaration && n.hasModifier .kwPublic

/-- The type that a node declares, if it is exposed. -/
def check (start : String) (_ : Bindings) (n : Node) : List Finding :=
  if isExposed start n then
    [⟨descriptor, n, [label n.kind, (n.typeName?.map (·.token.text)).getD ""]⟩]
  else []

def name : String := "restricted-namespace-public-types"

def rule (start : String) : Rule where
  name := name
  description := "Flags public types declared in a restricted namespace"
  descriptors := [descriptor]
  severity := .warning
  kinds := [.classDeclaration, .structDeclaration, .interfaceDeclaration, .enumDeclaration,
    .recordDeclaration, .recordStructDeclaration, .delegateDeclaration]
  check := reporting name (check start)

end SharpLint.Rule.SupportNamespace
