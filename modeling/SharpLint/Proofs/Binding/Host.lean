import SharpLint.Proofs.Document.Sound
import SharpLint.Proofs.Tree.Descendants
import SharpLint.Proofs.Tree.Parts

/-!
# What a host knows about types

In a sound snapshot every type declaration has a full name, and what the symbol table lists under a
name are type declarations of the snapshot (`knows_host`), and all of them (`lists_host`). The first
two stay true when some documents are hidden from the one who asks (`Knows.without`).
-/

namespace SharpLint

/-- The reference names a type declaration of the snapshot. -/
def DeclarationRef.In (s : Snapshot) (r : DeclarationRef) : Prop :=
  ∃ d ∈ s.documents, ∃ n : Node, n.Inside d.root ∧ n.kind.isTypeDeclaration = true ∧
    r = ⟨d.id, n.span, n.kind⟩

namespace Host

/-- Type declarations have names, and names stand for type declarations. -/
structure Knows (host : Host) (s : Snapshot) : Prop where
  declared : ∀ d ∈ s.documents, ∀ b, host.bindings? d.id = some b → ∀ n : Node, n.Inside d.root →
    n.kind.isTypeDeclaration = true → ∃ name, b.declaredSymbol? n = some name
  declarations : ∀ name, ∀ r ∈ host.declarationsOf name, r.In s

/-- The declarations of a name are all those of the type. -/
def Lists (host : Host) (s : Snapshot) : Prop :=
  ∀ d ∈ s.documents, ∀ b, host.bindings? d.id = some b → ∀ n : Node, n.Inside d.root →
    n.kind.isTypeDeclaration = true → ∀ name, b.declaredSymbol? n = some name →
      ⟨d.id, n.span, n.kind⟩ ∈ host.declarationsOf name

/-- The host without its bindings for the documents with some paths. -/
def without (host : Host) (hidden : String → Bool) : Host where
  bindings? := fun document => if hidden document.spelling then none else host.bindings? document
  declarationsOf := host.declarationsOf

theorem bindings?_of_without {host : Host} {hidden : String → Bool} {id : DocumentId} {b : Bindings}
    (h : (host.without hidden).bindings? id = some b) : host.bindings? id = some b := by
  unfold without at h
  dsimp only at h
  split at h
  · cases h
  · exact h

theorem Knows.without {host : Host} {s : Snapshot} (h : host.Knows s) (hidden : String → Bool) :
    (host.without hidden).Knows s where
  declared d hd b hb := h.declared d hd b (bindings?_of_without hb)
  declarations := h.declarations

end Host

/-! ## Names of types -/

/-- In a sound tree a type declaration has a full name. -/
theorem exists_qualifiedName {t : Tree} (ht : t.Sound) {n : Node} (hn : n.Inside t)
    (hkind : n.kind.isTypeDeclaration = true) : ∃ name, qualifiedName? n = some name := by
  have hinside : ∀ a ∈ n.ancestorsAndSelf, a.Inside t := by
    intro a ha
    rcases List.mem_cons.mp ha with rfl | ha
    · exact hn
    · exact hn.of_mem_ofFrames ha
  unfold qualifiedName?
  dsimp only
  rw [if_neg]
  · exact ⟨_, rfl⟩
  · rw [Bool.or_eq_true, not_or]
    constructor
    · -- the node itself gives a name
      rw [Node.ancestorsAndSelf, List.filterMap_cons_some (by rw [if_pos hkind])]
      exact Bool.false_ne_true
    · intro hnone
      obtain ⟨name, hname, hnone⟩ := List.any_eq_true.mp hnone
      obtain ⟨a, ha, hname⟩ := List.mem_filterMap.mp hname
      have hshaped := (hinside a ha).shaped ht.shaped
      split at hname
      · rename_i htype
        obtain ⟨token, htoken⟩ := Node.exists_typeName hshaped htype
        rw [htoken] at hname
        cases hname
        cases hnone
      · split at hname
        · rename_i hspace
          obtain ⟨m, hm⟩ := Node.exists_namespaceName hshaped hspace
          rw [hm] at hname
          cases hname
          cases hnone
        · cases hname

/-! ## The symbol table -/

namespace SymbolTable

/-- The types of a table are those of the nodes of the documents, in their order. -/
theorem types_foldl (documents : List Document) (table : SymbolTable) :
    (documents.foldl collect table).types = table.types ++
      documents.flatMap fun d => d.rootNode.descendants.filterMap (typeAt? d.id) := by
  induction documents generalizing table with
  | nil => exact (List.append_nil _).symm
  | cons d documents ih =>
    rw [List.foldl_cons, ih, List.flatMap_cons, ← List.append_assoc]
    rfl

theorem mem_types_ofSnapshot {s : Snapshot} {entry : TypeEntry} :
    entry ∈ (ofSnapshot s).types ↔
      ∃ d ∈ s.documents, ∃ n ∈ d.rootNode.descendants, typeAt? d.id n = some entry := by
  rw [ofSnapshot, types_foldl, empty, List.nil_append, List.mem_flatMap]
  simp only [List.mem_filterMap]

theorem declarationsOf_in {s : Snapshot} {name : String} {r : DeclarationRef}
    (h : r ∈ (ofSnapshot s).declarationsOf name) : r.In s := by
  obtain ⟨entry, hentry, rfl⟩ := List.mem_map.mp h
  obtain ⟨d, hd, n, hn, htype⟩ := mem_types_ofSnapshot.mp (List.mem_filter.mp hentry).1
  unfold typeAt? at htype
  split at htype
  · rename_i hkind
    obtain ⟨name, -, rfl⟩ := Option.map_eq_some_iff.mp htype
    exact ⟨d, hd, n, .of_mem_descendants hn, hkind, rfl⟩
  · cases htype

theorem mem_declarationsOf {s : Snapshot} {d : Document} (hd : d ∈ s.documents) {n : Node}
    (hn : n.Inside d.root) (hkind : n.kind.isTypeDeclaration = true) {name : String}
    (hname : qualifiedName? n = some name) :
    ⟨d.id, n.span, n.kind⟩ ∈ (ofSnapshot s).declarationsOf name := by
  have hentry : typeAt? d.id n = some ⟨name, simpleName name, ⟨d.id, n.span, n.kind⟩⟩ := by
    rw [typeAt?, if_pos hkind, hname]
    rfl
  have htypes : _ ∈ (ofSnapshot s).types :=
    mem_types_ofSnapshot.mpr ⟨d, hd, n, Node.mem_descendants_root.mpr hn, hentry⟩
  exact List.mem_map.mpr ⟨_, List.mem_filter.mpr ⟨htypes, beq_self_eq_true name⟩, rfl⟩

end SymbolTable

/-- The host of a sound snapshot knows its types. -/
theorem Workspace.knows_host {s : Snapshot} (hs : s.Sound) : (ofSnapshot s).host.Knows s where
  declared d hd b hb n hn hkind := by
    obtain ⟨scope, -, rfl⟩ := Option.map_eq_some_iff.mp hb
    obtain ⟨name, hname⟩ := exists_qualifiedName (hs.root d hd) hn hkind
    refine ⟨name, ?_⟩
    show Scope.declaredSymbol? n = some name
    rw [Scope.declaredSymbol?, if_pos hkind, hname]
  declarations name r hr := SymbolTable.declarationsOf_in hr

theorem Workspace.knows_snapshot {sources : List (String × String)} {w : Workspace}
    (h : ofSources sources = .ok w) : w.host.Knows w.snapshot := by
  rw [(ofSources_eq_ok h).2]
  exact knows_host (sound_snapshot h)

/-- The host knows the names of every document. -/
theorem Workspace.bindings?_host {s : Snapshot} {d : Document} (hd : d ∈ s.documents) : (ofSnapshot s).host.bindings? d.id =
      some (Scope.ofDocument (SymbolTable.ofSnapshot s) d).bindings := by
  have hfind : s.documents.find? (fun e => e.id.same d.id) = some d :=
    s.find?_eq hd (DocumentId.same_iff.mpr rfl)
  show (((ofSnapshot s).scopes.find? (·.document.same d.id)).map DocumentScope.scope).map
    Scope.bindings = _
  rw [ofSnapshot, List.find?_map]
  show ((((s.documents.find? (fun e => e.id.same d.id)).map _).map DocumentScope.scope).map
    Scope.bindings) = _
  rw [hfind]
  rfl

/-- The host lists all declarations of a type. -/
theorem Workspace.lists_host (s : Snapshot) : (ofSnapshot s).host.Lists s := by
  intro d hd b hb n hn hkind name hname
  rw [bindings?_host hd, Option.some.injEq] at hb
  have hsymbol : Scope.declaredSymbol? n = some name := by rw [← hb] at hname; exact hname
  rw [Scope.declaredSymbol?, if_pos hkind] at hsymbol
  exact SymbolTable.mem_declarationsOf hd hn hkind hsymbol

end SharpLint
