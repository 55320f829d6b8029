import SharpLint.Proofs.Repair.Clearing

/-!
# Scopes that agree

Types of expressions depend on a scope through the symbols of names and members alone. Two scopes that
give these the same symbols (`Scope.Agrees`) see the same types, so that the same is due under both
(`free_iff`).

A snapshot that binds the same names as another one, has the same members, and types of the same names,
has scopes that agree with those of the other one (`agrees_of_bound`), wherever its types stand.
-/

namespace SharpLint

open SharpLint.Tree Skeleton

/-- Names and members have the same symbols. -/
structure Scope.Agrees (scope scope' : Scope) : Prop where
  name : ∀ name, scope.nameSymbol? name = scope'.nameSymbol? name
  member : ∀ name, scope.table.member? name = scope'.table.member? name

variable {scope scope' : Scope} {start : String} {cause : Cause} {σ : Situation}

namespace Scope.Agrees

/-! ## What is due -/

theorem shadows_eq (h : scope.Agrees scope') (kind : FloatKind) :
    scope.shadows kind = scope'.shadows kind := by
  rw [shadows, shadows, h.name, h.member]

theorem symbolOf_eq (h : scope.Agrees scope') (head : Head) (nodes : List Aspect) :
    Aspect.symbolOf scope head nodes = Aspect.symbolOf scope' head nodes := by
  unfold Aspect.symbolOf
  split
  · exact h.name head.name
  · exact congrArg (nodes[1]?.bind ·) (funext fun a => h.member a.name)
  · exact congrArg (nodes[1]?.bind ·) (funext fun a => h.member a.name)
  · rfl
  · rfl

theorem of_eq (h : scope.Agrees scope') (names : List (Option String)) (head : Head)
    (words : List (TokenKind × String)) (nodes : List Aspect) :
    Aspect.of scope names head words nodes = Aspect.of scope' names head words nodes := by
  rw [Aspect.of, Aspect.of, Aspect.parts, Aspect.parts, h.symbolOf_eq]

mutual

theorem aspect?_eq (h : scope.Agrees scope') (names : List (Option String)) :
    ∀ t : Skeleton, t.aspect? scope names = t.aspect? scope' names
  | .word _ _ => rfl
  | .node head cs => by rw [aspect?, aspect?, h.aspects_eq _ cs, h.of_eq]

theorem aspects_eq (h : scope.Agrees scope') (names : List (Option String)) :
    ∀ cs : List Skeleton, aspects scope names cs = aspects scope' names cs
  | [] => rfl
  | c :: cs => by rw [aspects, aspects, h.aspect?_eq names c, h.aspects_eq names cs]

end

theorem typeIn_eq (h : scope.Agrees scope') (σ : Situation) (t : Skeleton) :
    typeIn scope σ t = typeIn scope' σ t := by
  rw [typeIn, typeIn, h.aspect?_eq]

theorem isDue_eq (h : scope.Agrees scope') (σ : Situation) (head : Head) (cs : List Skeleton)
    (cause : Cause) : isDue scope σ head cs cause = isDue scope' σ head cs cause := by
  cases cause with
  | call => rw [isDue, isDue, h.aspects_eq]
  | text => rw [isDue, isDue, h.aspects_eq, h.typeIn_eq]
  | visibility => rfl

theorem down_eq (h : scope.Agrees scope') (σ : Situation) (head : Head) (cs : List Skeleton) :
    down scope start σ head cs = down scope' start σ head cs := by
  rw [down, down, h.typeIn_eq]

theorem dueAt_iff (h : scope.Agrees scope') {t : Skeleton} {path : List Nat} :
    DueAt scope start cause σ t path ↔ DueAt scope' start cause σ t path := by
  induction path generalizing σ t with
  | nil =>
    cases t with
    | word k text => exact Iff.rfl
    | node head cs => rw [DueAt, DueAt, h.isDue_eq]
  | cons i path ih =>
    cases t with
    | word k text => exact Iff.rfl
    | node head cs => simp only [DueAt, h.down_eq, ih]

theorem free_iff (h : scope.Agrees scope') {t : Tree} :
    t.Free scope start cause ↔ t.Free scope' start cause :=
  not_congr (exists_congr fun _ => h.dueAt_iff)

end Scope.Agrees

/-! ## Scopes of snapshots -/

/-- What the names of a document with the tree stand for. -/
def Snapshot.scopeOf (s : Snapshot) (root : Tree) : Scope :=
  (Node.root root).descendants.foldl Scope.bindNode ⟨[], SymbolTable.ofSnapshot s⟩

/-- What a snapshot binds: the names in each document, the members of all types, and the simple names of
the types. -/
def Snapshot.bound (s : Snapshot) : List (DocumentId × List SymbolInfo) × List SymbolInfo × List String :=
  (s.documents.map fun d => (d.id, (s.scopeOf d.root).names), (SymbolTable.ofSnapshot s).members,
    (SymbolTable.ofSnapshot s).types.map TypeEntry.simpleName)

namespace Scope

theorem table_bind (scope : Scope) (kind : SymbolKind) (name : Option TokenAt) (type : Option TypeRef) :
    (scope.bind kind name type).table = scope.table := by
  cases name with
  | none => rfl
  | some t => rfl

theorem table_bindVariables (scope : Scope) (n : Node) :
    (scope.bindVariables n).table = scope.table :=
  List.foldlRecOn _ _ (motive := fun other : Scope => other.table = scope.table) rfl
    fun other h _ _ => (table_bind other _ _ _).trans h

theorem table_bindNode (scope : Scope) (n : Node) : (scope.bindNode n).table = scope.table := by
  unfold bindNode
  dsimp only
  split
  · exact table_bind scope _ _ _
  · exact table_bind scope _ _ _
  · exact table_bind scope _ _ _
  · exact table_bind scope _ _ _
  · exact table_bind scope _ _ _
  · split
    · exact table_bindVariables scope n
    · rfl
  · rfl

end Scope

theorem Snapshot.table_scopeOf (s : Snapshot) (root : Tree) :
    (s.scopeOf root).table = SymbolTable.ofSnapshot s :=
  List.foldlRecOn _ Scope.bindNode
    (motive := fun scope : Scope => scope.table = SymbolTable.ofSnapshot s) rfl
    fun scope h n _ => (Scope.table_bindNode scope n).trans h

/-- Whether a type is named depends on the simple names alone. -/
theorem SymbolTable.isSome_typeNamed? (t : SymbolTable) (name : String) :
    (t.typeNamed? name).isSome = (t.types.map TypeEntry.simpleName).contains name := by
  rw [typeNamed?, Option.isSome_map, Bool.eq_iff_iff, List.find?_isSome, List.contains_iff_mem,
    List.mem_map]
  simp only [List.mem_reverse, beq_iff_eq]

theorem Workspace.bindings?_scopeOf {s : Snapshot} {d : Document} (hd : d ∈ s.documents) :
    (ofSnapshot s).host.bindings? d.id = some (s.scopeOf d.root).bindings :=
  bindings?_host hd

/-- Where the same is bound, the scopes of a document agree. -/
theorem Snapshot.agrees_of_bound {s t : Snapshot} (h : s.bound = t.bound) {d d' : Document}
    (hd : d ∈ s.documents) (hd' : d' ∈ t.documents) (hid : d.id = d'.id) :
    (s.scopeOf d.root).Agrees (t.scopeOf d'.root) := by
  obtain ⟨hnames, htables⟩ := Prod.mk.inj h
  obtain ⟨hmembers, htypes⟩ := Prod.mk.inj htables
  have hmem : (d.id, (s.scopeOf d.root).names) ∈ t.documents.map fun d =>
      (d.id, (t.scopeOf d.root).names) := hnames ▸ List.mem_map_of_mem hd
  obtain ⟨other, hother, heq⟩ := List.mem_map.mp hmem
  obtain ⟨hotherId, hotherNames⟩ := Prod.mk.inj heq
  have hfind := t.find?_eq hd' (DocumentId.same_iff.mpr rfl)
  rw [← hid, ← hotherId, t.find?_eq hother (DocumentId.same_iff.mpr rfl), Option.some.injEq] at hfind
  rw [hfind] at hotherNames
  have hmember (name : String) : (s.scopeOf d.root).table.member? name =
      (t.scopeOf d'.root).table.member? name := by
    rw [s.table_scopeOf, t.table_scopeOf, SymbolTable.member?, SymbolTable.member?, hmembers]
  refine ⟨fun name => ?_, hmember⟩
  rw [Scope.nameSymbol?, Scope.nameSymbol?, hotherNames, hmember]
  have hnamed : ((s.scopeOf d.root).table.typeNamed? name).isSome =
      ((t.scopeOf d'.root).table.typeNamed? name).isSome := by
    rw [s.table_scopeOf, t.table_scopeOf, SymbolTable.isSome_typeNamed?,
      SymbolTable.isSome_typeNamed?, htypes]
  congr 1
  cases hs : (s.scopeOf d.root).table.typeNamed? name with
  | none =>
    rw [hs] at hnamed
    rw [Option.not_isSome_iff_eq_none.mp (Bool.eq_false_iff.mp hnamed.symm)]
  | some full =>
    rw [hs] at hnamed
    obtain ⟨full', ht⟩ := Option.isSome_iff_exists.mp hnamed.symm
    rw [ht]
    rfl

end SharpLint
