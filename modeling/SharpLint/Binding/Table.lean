import SharpLint.Binding.TypeName

/-!
# Symbols of all documents

Type declarations under their full names, and members under their simple names. Of members and
types with the same simple name, the one collected last counts; documents are gone through in the
order of their ids, nodes from the root down.
-/

namespace SharpLint

/-- The full name of the type that a node declares or stands in: the names of the namespaces and
types around it with dots between them. -/
def qualifiedName? (n : Node) : Option String :=
  let name? (m : Node) : Option (Option String) :=
    if m.kind.isTypeDeclaration then some (m.typeName?.map (·.token.text))
    else if m.kind.isNamespaceDeclaration then some (m.namespaceName?.map Node.text)
    else none
  let names := n.ancestorsAndSelf.filterMap name?
  if names.isEmpty || names.any Option.isNone then none
  else some (joinWith "." (names.filterMap id).reverse)

/-- The part of a dotted name behind the last dot. -/
def simpleName (name : String) : String :=
  String.ofList ((splitAtEach '.' name.toList).getLastD [])

/-- A declaration of a type. -/
structure TypeEntry where
  fullName : String
  simpleName : String
  declaration : DeclarationRef
  deriving DecidableEq

/-- Types in the order of collection, and members, the latest first. -/
structure SymbolTable where
  types : List TypeEntry
  members : List SymbolInfo
  deriving DecidableEq

namespace SymbolTable

def empty : SymbolTable := ⟨[], []⟩

def typeDeclaredAt? (n : Node) : Option TypeRef := n.declaredType?.bind TypeRef.ofNode?

def memberAt? (kind : SymbolKind) (n : Node) : Option SymbolInfo :=
  n.declaredName?.map fun name => ⟨kind, name.token.text, typeDeclaredAt? n⟩

def fieldsAt (n : Node) : List SymbolInfo :=
  match n.childOfKind? .variableDeclaration with
  | none => []
  | some declaration =>
    let type := typeDeclaredAt? declaration
    (declaration.childNodes.filter (·.kind == .variableDeclarator)).filterMap fun d =>
      d.declaredName?.map fun name => ⟨.field, name.token.text, type⟩

def membersAt (n : Node) : List SymbolInfo :=
  match n.kind with
  | .fieldDeclaration => fieldsAt n
  | .propertyDeclaration => (memberAt? .property n).toList
  | .methodDeclaration => (memberAt? .method n).toList
  | _ => []

def typeAt? (document : DocumentId) (n : Node) : Option TypeEntry :=
  if n.kind.isTypeDeclaration then
    (qualifiedName? n).map fun name => ⟨name, simpleName name, ⟨document, n.span, n.kind⟩⟩
  else none

def collect (t : SymbolTable) (d : Document) : SymbolTable :=
  let nodes := d.rootNode.descendants
  ⟨t.types ++ nodes.filterMap (typeAt? d.id), (nodes.flatMap membersAt).reverse ++ t.members⟩

def ofSnapshot (s : Snapshot) : SymbolTable := s.documents.foldl collect empty

def declarationsOf (t : SymbolTable) (fullName : String) : List DeclarationRef :=
  (t.types.filter (·.fullName == fullName)).map TypeEntry.declaration

def typeNamed? (t : SymbolTable) (simpleName : String) : Option String :=
  (t.types.reverse.find? (·.simpleName == simpleName)).map TypeEntry.fullName

def member? (t : SymbolTable) (name : String) : Option SymbolInfo := t.members.find? (·.name == name)

/-- The names of all declared types, sorted. -/
def typeNames (t : SymbolTable) : List String :=
  (stableSort compareText (t.types.map TypeEntry.fullName)).eraseDups

end SymbolTable

end SharpLint
