import Mathlib.Data.List.Nodup
import SharpLint.Proofs.Binding.Host

/-!
# Where a type is declared

The symbol table gathers the declarations of a type over all documents; a node is asked for the type
that it declares on its own, by the nodes around it. Both go by one name, so that the declarations of
a type are the nodes that declare it, from one document to the next and from the root down
(`declarationsOf_eq`). No two of these nodes have the same span and kind, so that a reference leads
back to its node:

    references to the declarations of a type  ↔  nodes that declare it        (declarationsOf_exact)
-/

namespace SharpLint

/-- The references name one node: their documents are the same, and so are span and kind. -/
def DeclarationRef.same (r r' : DeclarationRef) : Bool :=
  r.document.same r'.document && r.span == r'.span && r.kind == r'.kind

/-- The declarations of a type in a document, from the root down. -/
def Host.declarationsIn (host : Host) (name : String) (d : Document) : List DeclarationRef :=
  (d.rootNode.descendants.filter fun n =>
    (host.bindings? d.id).any (·.declaredSymbol? n == some name)).map fun n => ⟨d.id, n.span, n.kind⟩

/-! ## The symbol table -/

namespace SymbolTable

/-- The table files a node under the name that the node declares. -/
theorem typeAt?_eq (document : DocumentId) (n : Node) :
    typeAt? document n = (Scope.declaredSymbol? n).map fun name =>
      ⟨name, simpleName name, ⟨document, n.span, n.kind⟩⟩ := by
  unfold typeAt? Scope.declaredSymbol?
  split
  · rfl
  · rfl

theorem filter_typeAt? (document : DocumentId) (name : String) (nodes : List Node) :
    ((nodes.filterMap (typeAt? document)).filter (·.fullName == name)).map TypeEntry.declaration =
      (nodes.filter fun n => Scope.declaredSymbol? n == some name).map fun n =>
        ⟨document, n.span, n.kind⟩ := by
  induction nodes with
  | nil => rfl
  | cons n nodes ih =>
    rw [List.filterMap_cons, List.filter_cons, typeAt?_eq]
    cases Scope.declaredSymbol? n with
    | none => exact ih
    | some other =>
      rw [Option.map_some, List.filter_cons, Option.some_beq_some]
      split
      · rw [List.map_cons, List.map_cons, ih]
      · exact ih

end SymbolTable

/-! ## Nodes and their references -/

section

variable {s : Snapshot} {d : Document} {name : String}

theorem Workspace.declarationsIn_host (hd : d ∈ s.documents) :
    (ofSnapshot s).host.declarationsIn name d =
      (d.rootNode.descendants.filter fun n => Scope.declaredSymbol? n == some name).map fun n =>
        ⟨d.id, n.span, n.kind⟩ := by
  rw [Host.declarationsIn, bindings?_host hd]
  rfl

/-- The declarations of a type, from one document to the next. -/
theorem Workspace.declarationsOf_eq (s : Snapshot) (name : String) :
    (ofSnapshot s).host.declarationsOf name =
      s.documents.flatMap ((ofSnapshot s).host.declarationsIn name) := by
  show (SymbolTable.ofSnapshot s).declarationsOf name = _
  rw [SymbolTable.declarationsOf, SymbolTable.ofSnapshot, SymbolTable.types_foldl,
    SymbolTable.empty, List.nil_append, List.filter_flatMap, List.map_flatMap]
  refine List.flatMap_congr fun d hd => ?_
  rw [SymbolTable.filter_typeAt?, declarationsIn_host hd]

theorem isTypeDeclaration_of_declaredSymbol? {n : Node} (h : Scope.declaredSymbol? n = some name) :
    n.kind.isTypeDeclaration = true := by
  unfold Scope.declaredSymbol? at h
  split at h
  · assumption
  · cases h

/-- A node that declares a type is found by its span and kind. -/
theorem findNode?_of_declaredSymbol? (hsound : d.root.Sound) (hlaid : d.root.Laid) {n : Node}
    (hn : n ∈ d.rootNode.descendants) (hname : Scope.declaredSymbol? n = some name) :
    d.rootNode.findNode? n.span n.kind = some n := by
  have hinside : n.Inside d.root := .of_mem_descendants hn
  have hword : n.tree.HasWord := Node.hasWord_typeDeclaration (hinside.shaped hsound.shaped)
    (isTypeDeclaration_of_declaredSymbol? hname)
  exact hinside.findNode?_self hlaid hsound hword

/-- In its own document a declaration is referred to once. -/
theorem countP_declarationsIn (hs : s.Sound) (hd : d ∈ s.documents) (hlaid : d.root.Laid) {n : Node}
    (hn : n ∈ d.rootNode.descendants) (hname : Scope.declaredSymbol? n = some name) :
    ((Workspace.ofSnapshot s).host.declarationsIn name d).countP
      (DeclarationRef.same ⟨d.id, n.span, n.kind⟩) = 1 := by
  have hmem : n ∈ d.rootNode.descendants.filter fun m => Scope.declaredSymbol? m == some name :=
    List.mem_filter.mpr ⟨hn, beq_iff_eq.mpr hname⟩
  rw [Workspace.declarationsIn_host hd, List.countP_map,
    ← List.count_eq_one_of_mem ((Node.nodup_descendants _).filter _) hmem, List.count]
  refine List.countP_congr fun m hm => ?_
  obtain ⟨hm, hmname⟩ := List.mem_filter.mp hm
  have hfound := findNode?_of_declaredSymbol? (hs.root d hd) hlaid hm (beq_iff_eq.mp hmname)
  rw [Function.comp_apply, DeclarationRef.same, DocumentId.same_iff.mpr rfl, Bool.true_and]
  dsimp only
  rw [Bool.and_eq_true, beq_iff_eq, beq_iff_eq, beq_iff_eq]
  constructor
  · rintro ⟨hspan, hkind⟩
    rw [← hspan, ← hkind, findNode?_of_declaredSymbol? (hs.root d hd) hlaid hn hname] at hfound
    exact (Option.some.inj hfound).symm
  · rintro rfl
    exact ⟨rfl, rfl⟩

/-- The references of other documents name other nodes. -/
theorem countP_flatMap_of_ne {documents : List Document} {host : Host} {r : DeclarationRef}
    (hne : ∀ e ∈ documents, r.document.same e.id = false) :
    (documents.flatMap (host.declarationsIn name)).countP r.same = 0 := by
  rw [List.countP_eq_zero]
  intro other hother
  obtain ⟨e, he, hother⟩ := List.mem_flatMap.mp hother
  obtain ⟨m, -, rfl⟩ := List.mem_map.mp hother
  rw [DeclarationRef.same, hne e he, Bool.false_and, Bool.false_and]
  exact Bool.false_ne_true

/-- Where the documents have different ids, only one of them refers to a node. -/
theorem countP_flatMap_of_mem {documents : List Document} {host : Host} {r : DeclarationRef}
    (hsorted : SortedBy Document.id documents) (hd : d ∈ documents) (hr : r.document = d.id) :
    (documents.flatMap (host.declarationsIn name)).countP r.same =
      (host.declarationsIn name d).countP r.same := by
  obtain ⟨before, after, rfl⟩ := List.append_of_mem hd
  obtain ⟨-, hsorted, hbefore⟩ := List.pairwise_append.mp hsorted
  obtain ⟨hafter, -⟩ := List.pairwise_cons.mp hsorted
  rw [List.flatMap_append, List.flatMap_cons, List.countP_append, List.countP_append,
    countP_flatMap_of_ne, countP_flatMap_of_ne, Nat.zero_add, Nat.add_zero]
  · intro e he
    rw [hr]
    exact DocumentId.same_eq_false_of_lt (hafter e he)
  · intro e he
    rw [hr, DocumentId.same_comm]
    exact DocumentId.same_eq_false_of_lt (hbefore e he d List.mem_cons_self)

end

/-! ## Workspaces -/

namespace Workspace

/-- The declarations of a type are right: those of all nodes that declare it, and of no others. -/
structure Declares (w : Workspace) (name : String) : Prop where
  /-- Every node that declares the type is referred to once. -/
  once : ∀ d ∈ w.snapshot.documents, ∃ b, w.host.bindings? d.id = some b ∧
    ∀ n ∈ d.rootNode.descendants, b.declaredSymbol? n = some name →
      (w.host.declarationsOf name).countP (DeclarationRef.same ⟨d.id, n.span, n.kind⟩) = 1
  /-- Every reference leads to a node that declares the type. -/
  found : ∀ r ∈ w.host.declarationsOf name, ∃ d b n, w.snapshot.find? r.document = some d ∧
    w.host.bindings? d.id = some b ∧ d.rootNode.findNode? r.span r.kind = some n ∧
      b.declaredSymbol? n = some name
  /-- The references follow the documents by id, and the nodes of each from the root down. -/
  sorted : SortedBy Document.id w.snapshot.documents
  inOrder : w.host.declarationsOf name =
    w.snapshot.documents.flatMap (w.host.declarationsIn name)

/-- In a workspace of source texts the declarations of every type are right. -/
theorem declarationsOf_exact {sources : List (String × String)} {w : Workspace}
    (h : ofSources sources = .ok w) (name : String) : w.Declares name := by
  have hs := sound_snapshot h
  have hlaid := laid_snapshot h
  obtain ⟨s, rfl⟩ : ∃ s, w = ofSnapshot s := ⟨w.snapshot, (ofSources_eq_ok h).2⟩
  have hs : s.Sound := hs
  have hdeclarations := declarationsOf_eq s name
  refine ⟨fun d hd => ⟨_, bindings?_host hd, fun n hn hname => ?_⟩, fun r hr => ?_, s.sorted,
    hdeclarations⟩
  · rw [hdeclarations, countP_flatMap_of_mem s.sorted hd rfl]
    exact countP_declarationsIn hs hd (hlaid d hd) hn hname
  · rw [hdeclarations] at hr
    obtain ⟨d, hd, hr⟩ := List.mem_flatMap.mp hr
    rw [declarationsIn_host hd] at hr
    obtain ⟨n, hn, rfl⟩ := List.mem_map.mp hr
    obtain ⟨hn, hname⟩ := List.mem_filter.mp hn
    have hname : Scope.declaredSymbol? n = some name := beq_iff_eq.mp hname
    exact ⟨d, _, n, s.find?_eq hd (DocumentId.same_iff.mpr rfl), bindings?_host hd,
      findNode?_of_declaredSymbol? (hs.root d hd) (hlaid d hd) hn hname, hname⟩

/-- A nested type in three parts, two of them in one file. -/
def splitSources : List (String × String) :=
  [("B.cs", "namespace N \x7b partial class C \x7b partial class D \x7b \x7d partial class D \x7b \x7d \x7d \x7d"),
    ("A.cs", "namespace N; partial class C \x7b partial class D \x7b \x7d \x7d")]

theorem declarationsOf_exact_splitSources :
    ∃ w, ofSources splitSources = .ok w ∧ (w.host.declarationsOf "N.C.D").length = 3 ∧
      w.Declares "N.C.D" := by
  have hrun : (ofSources splitSources).toOption.any (fun w =>
      (w.host.declarationsOf "N.C.D").length == 3) = true := by decide +kernel
  cases hw : ofSources splitSources with
  | error e =>
    rw [hw] at hrun
    cases hrun
  | ok w =>
    rw [hw] at hrun
    exact ⟨w, rfl, beq_iff_eq.mp hrun, declarationsOf_exact hw "N.C.D"⟩

end Workspace

end SharpLint
