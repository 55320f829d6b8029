import Mathlib.Data.List.Nodup
import SharpLint.Proofs.Diagnostic.Order
import SharpLint.Proofs.Engine.Diagnostics

/-!
# The analysis as a plain loop

The engine walks every document with a stack, looks rules up in a table by the kind of a node, sorts
the diagnostics of the document, and sorts those of all documents once more. The walk visits the nodes
in preorder (`Node.descendants_eq`). Where no rule names a kind twice, the table holds for each kind
the rules that ask for it, in their order (`rulesFor_eq`). Where rules report in the document they are
shown, the documents come one after the other, so that the last sort changes nothing:

    analyze  =  for every document, every node and every rule, stably sorted     (analyze_eq_loop)
-/

namespace SharpLint

open Std

/-- The rule names no kind twice, and reports in the document that it is shown. -/
structure Rule.Orderly (r : Rule) : Prop where
  kinds : r.kinds.Nodup
  place : ∀ ctx, ∀ d ∈ r.check ctx, d.location.document.same ctx.document = true

theorem Rule.IsBuiltIn.orderly {start : String} {r : Rule} {find : Bindings → Node → List Finding}
    (h : IsBuiltIn start r find) : r.Orderly where
  kinds := by
    cases h with
    | supportNamespace =>
      dsimp only [SupportNamespace.rule]
      decide
    | _ => decide
  place := by
    intro ctx d hd
    rw [h.check_eq] at hd
    obtain ⟨f, -, rfl⟩ := List.mem_map.mp hd
    exact DocumentId.same_iff.mpr rfl

/-- With another severity a rule stays orderly. -/
theorem Rule.Orderly.withSeverity {r : Rule} (h : r.Orderly) (severity : Severity) :
    (r.withSeverity severity).Orderly :=
  ⟨h.kinds, h.place⟩

namespace Engine

variable {e : Engine} {s : Snapshot} {host : Host} {d : Document} {b : Bindings} {kind : NodeKind}

/-! ## The loop -/

/-- The rule is enabled and asks for nodes of the kind. -/
def asks (e : Engine) (kind : NodeKind) (r : Rule) : Bool :=
  e.config.isEnabled r.name && r.kinds.contains kind

/-- What a rule reports at a node, with the configured severity, as far as directives let it. -/
def reported (e : Engine) (d : Document) (b : Bindings) (n : Node) (r : Rule) : List Diagnostic :=
  ((r.check ⟨n, d.id, d.chars, b, r.severity⟩).map fun found =>
    { found with severity := (e.config.severity? r.name).getD found.severity }).filterMap
      (withDirective d.chars r)

/-- The diagnostics of a document: at every node in preorder, those of every rule that asks. -/
def loopDocument (e : Engine) (d : Document) (b : Bindings) : List Diagnostic :=
  (Node.preorder [] 0 d.rootNode.tree).flatMap fun n =>
    (e.rules.filter (e.asks n.kind)).flatMap (e.reported d b n)

/-- The document is not excluded, and known to the host. -/
def isChecked (e : Engine) (host : Host) (d : Document) : Bool :=
  !e.config.isExcluded d.id.spelling && (host.bindings? d.id).isSome

/-- The diagnostics of all documents, one document after the other. -/
def loop (e : Engine) (s : Snapshot) (host : Host) : Report :=
  let checked := s.documents.filter (e.isChecked host)
  ⟨checked.flatMap fun d => ((host.bindings? d.id).map fun b =>
      stableSort Diagnostic.orderInDocument (e.loopDocument d b)).getD [],
    checked.length⟩

/-! ## The table -/

/-- A rule is added to the table under each of its kinds. -/
theorem foldl_push {kinds : List NodeKind} (h : kinds.Nodup) (index : Nat) (table : Dispatch) :
    kinds.foldl (.push index) table kind =
      table kind ++ if kinds.contains kind then [index] else [] := by
  induction kinds generalizing table with
  | nil => exact (List.append_nil _).symm
  | cons k kinds ih =>
    obtain ⟨hk, hkinds⟩ := List.nodup_cons.mp h
    rw [List.foldl_cons, ih hkinds, Dispatch.push, List.contains_cons]
    by_cases hkind : kind = k
    · have hrest : kinds.contains kind = false := by
        rw [hkind]
        simpa using hk
      rw [if_pos hkind, hrest, beq_iff_eq.mpr hkind]
      exact List.append_nil _
    · rw [if_neg hkind, beq_eq_false_iff_ne.mpr hkind, Bool.false_or]

theorem register_apply {entry : Rule × Nat} (h : entry.1.kinds.Nodup) (table : Dispatch) :
    e.register table entry kind =
      table kind ++ if e.asks kind entry.1 then [entry.2] else [] := by
  unfold register asks
  split
  · rename_i henabled
    rw [foldl_push h, henabled, Bool.true_and]
  · rename_i hdisabled
    rw [Bool.eq_false_iff.mpr hdisabled]
    exact (List.append_nil _).symm

theorem foldl_register {entries : List (Rule × Nat)} (h : ∀ entry ∈ entries, entry.1.kinds.Nodup)
    (table : Dispatch) :
    entries.foldl e.register table kind =
      table kind ++ (entries.filter fun entry => e.asks kind entry.1).map Prod.snd := by
  induction entries generalizing table with
  | nil => exact (List.append_nil _).symm
  | cons entry entries ih =>
    rw [List.forall_mem_cons] at h
    rw [List.foldl_cons, ih h.2, register_apply h.1, List.append_assoc, List.filter_cons]
    split
    · rfl
    · rfl

/-- Looked up in the table, the rules are those that ask for the kind. -/
theorem rulesFor_eq (h : ∀ r ∈ e.rules, r.kinds.Nodup) (kind : NodeKind) :
    e.rulesFor kind = e.rules.filter (e.asks kind) := by
  have hentries : ∀ entry ∈ e.rules.zipIdx, entry.1.kinds.Nodup := fun entry hentry =>
    h _ (List.fst_mem_of_mem_zipIdx hentry)
  have hlookup : ∀ entry ∈ e.rules.zipIdx.filter fun entry => e.asks kind entry.1,
      e.rules[entry.2]? = some entry.1 := fun entry hentry =>
    List.mem_zipIdx_iff_getElem?.mp (List.mem_filter.mp hentry).1
  calc e.rulesFor kind
      = ((e.rules.zipIdx.filter fun entry => e.asks kind entry.1).map Prod.snd).filterMap
          fun index => e.rules[index]? := by
        rw [rulesFor, dispatch, foldl_register hentries, Dispatch.empty, List.nil_append]
    _ = (e.rules.zipIdx.filter fun entry => e.asks kind entry.1).map Prod.fst := by
        rw [List.filterMap_map, ← List.filterMap_eq_map]
        exact List.filterMap_congr hlookup
    _ = (e.rules.zipIdx.map Prod.fst).filter (e.asks kind) := by
        rw [List.filter_map]
        rfl
    _ = e.rules.filter (e.asks kind) := by rw [List.zipIdx_map_fst]

/-! ## One document -/

theorem overrideSeverity_eq (r : Rule) (ds : List Diagnostic) :
    e.overrideSeverity r ds = ds.map fun found =>
      { found with severity := (e.config.severity? r.name).getD found.severity } := by
  unfold overrideSeverity
  cases e.config.severity? r.name with
  | none => exact (List.map_id ds).symm
  | some severity => rfl

/-- The diagnostics of a document are those of the loop, sorted. -/
theorem analyzeDocument_eq (h : ∀ r ∈ e.rules, r.kinds.Nodup) (d : Document) (b : Bindings) :
    e.analyzeDocument d b = stableSort Diagnostic.orderInDocument (e.loopDocument d b) := by
  have hnode (n : Node) : e.diagnosticsAt d.id d.chars b n =
      (e.rules.filter (e.asks n.kind)).flatMap (e.reported d b n) := by
    rw [diagnosticsAt, rulesFor_eq h]
    refine List.flatMap_congr fun r _ => ?_
    rw [overrideSeverity_eq, reported]
  have hwalk : d.rootNode.descendants = Node.preorder [] 0 d.rootNode.tree := by
    rw [Node.descendants_eq, Document.rootNode, Node.above_root, Node.offset_root]
  rw [analyzeDocument, loopDocument, List.flatMap_congr fun n _ => hnode n, hwalk]

/-- All of them are in the document. -/
theorem same_of_mem_loopDocument (h : ∀ r ∈ e.rules, r.Orderly) {x : Diagnostic}
    (hx : x ∈ e.loopDocument d b) : x.location.document.same d.id = true := by
  obtain ⟨n, -, hx⟩ := List.mem_flatMap.mp hx
  obtain ⟨r, hr, hx⟩ := List.mem_flatMap.mp hx
  obtain ⟨y, hy, hdirective⟩ := List.mem_filterMap.mp hx
  obtain ⟨found, hfound, rfl⟩ := List.mem_map.mp hy
  have hplace := (h r (List.mem_filter.mp hr).1).place _ found hfound
  rw [(of_withDirective hdirective).2]
  exact hplace

/-! ## All documents -/

/-- The subjects of an analysis are the checked documents, each with what the host knows of it. -/
theorem subjects_eq (e : Engine) (s : Snapshot) (host : Host) :
    e.subjects s host = (s.documents.filter (e.isChecked host)).filterMap fun d =>
      (host.bindings? d.id).map fun b => (d, b) := by
  unfold subjects
  rw [List.filterMap_filter, List.filterMap_filter]
  refine List.filterMap_congr fun d _ => ?_
  unfold isChecked
  cases host.bindings? d.id with
  | none => simp
  | some b => simp

theorem length_subjects (e : Engine) (s : Snapshot) (host : Host) :
    (e.subjects s host).length = (s.documents.filter (e.isChecked host)).length := by
  rw [subjects_eq, List.length_filterMap_eq_countP, List.countP_eq_length]
  intro d hd
  have hknown := (Bool.and_eq_true_iff.mp (List.mem_filter.mp hd).2).2
  rwa [Option.isSome_map]

theorem flatMap_subjects (e : Engine) (s : Snapshot) (host : Host)
    (f : Document → Bindings → List Diagnostic) :
    (e.subjects s host).flatMap (fun subject => f subject.1 subject.2) =
      (s.documents.filter (e.isChecked host)).flatMap fun d =>
        ((host.bindings? d.id).map (f d)).getD [] := by
  rw [subjects_eq]
  induction s.documents.filter (e.isChecked host) with
  | nil => rfl
  | cons d documents ih =>
    rw [List.filterMap_cons, List.flatMap_cons, ← ih]
    cases host.bindings? d.id with
    | none => rfl
    | some b => rfl

theorem pairwise_subjects :
    (e.subjects s host).Pairwise fun x y => x.1.id.order y.1.id = .lt := by
  refine List.Pairwise.filterMap _ (fun d d' hlt x hx y hy => ?_) (List.Pairwise.filter _ s.sorted)
  obtain ⟨b, -, rfl⟩ := Option.map_eq_some_iff.mp hx
  obtain ⟨b', -, rfl⟩ := Option.map_eq_some_iff.mp hy
  exact hlt

/-- One document after the other, the diagnostics are sorted. -/
theorem pairwise_diagnostics (h : ∀ r ∈ e.rules, r.Orderly) :
    ((e.subjects s host).flatMap fun subject =>
      stableSort Diagnostic.orderInDocument (e.loopDocument subject.1 subject.2)).Pairwise
        fun x y => (x.order y).isLE = true := by
  have hplace {d : Document} {b : Bindings} {x : Diagnostic}
      (hx : x ∈ stableSort Diagnostic.orderInDocument (e.loopDocument d b)) :
      x.location.document.same d.id = true :=
    same_of_mem_loopDocument h ((stableSort_perm _ _).mem_iff.mp hx)
  refine List.pairwise_flatMap.mpr ⟨fun subject _ => ?_, pairwise_subjects.imp ?_⟩
  · refine (isLE_stableSort _).imp_of_mem fun {x y} hx hy hle => ?_
    rwa [Diagnostic.order_of_same (hplace hx) (hplace hy)]
  · intro subject subject' hlt x hx y hy
    rw [Diagnostic.order_of_lt (hplace hx) (hplace hy) hlt]
    rfl

/-- The analysis is the plain loop, for orderly rules. The built-in rules are orderly. -/
theorem analyze_eq_loop :
    (∀ start r find, Rule.IsBuiltIn start r find → r.Orderly) ∧
      ∀ (e : Engine) (s : Snapshot) (host : Host), (∀ r ∈ e.rules, r.Orderly) →
        e.analyze s host = e.loop s host := by
  refine ⟨fun start r find h => h.orderly, fun e s host h => ?_⟩
  have hdocuments : ((e.subjects s host).flatMap fun subject =>
        e.analyzeDocument subject.1 subject.2) =
      (e.subjects s host).flatMap fun subject =>
        stableSort Diagnostic.orderInDocument (e.loopDocument subject.1 subject.2) :=
    List.flatMap_congr fun subject _ => analyzeDocument_eq (fun r hr => (h r hr).kinds) _ _
  calc e.analyze s host
      = ⟨stableSort Diagnostic.order ((e.subjects s host).flatMap fun subject =>
          e.analyzeDocument subject.1 subject.2), (e.subjects s host).length⟩ := rfl
    _ = ⟨(e.subjects s host).flatMap fun subject =>
          stableSort Diagnostic.orderInDocument (e.loopDocument subject.1 subject.2),
          (e.subjects s host).length⟩ := by
        rw [hdocuments, stableSort_of_isLE (pairwise_diagnostics h)]
    _ = e.loop s host := by
        rw [length_subjects, flatMap_subjects e s host fun d b =>
          stableSort Diagnostic.orderInDocument (e.loopDocument d b)]
        rfl

/-- Comparisons and calls of `ToString`, where comparisons are errors and so need a reason. -/
def strictComparisons : Engine :=
  ⟨[Rule.Formatting.rule, Rule.Equality.rule.withSeverity .error], [], .default⟩

/-- A comparison that is allowed without a reason, a call that is allowed, and one that is not. -/
def allowedSources : List (String × String) :=
  [("B.cs", "class B \x7b string M(float x) => x.ToString(); \x7d"),
    ("A.cs", "class A \x7b float x;\n// numguard: allow(all)\n" ++
      "bool M() => x == 1; string N() => x.ToString(); \x7d")]

theorem analyze_eq_loop_allowedSources :
    ∃ w, Workspace.ofSources allowedSources = .ok w ∧
      (strictComparisons.analyze w.snapshot w.host).diagnostics.map (fun d => (d.code, d.help)) =
        [("NG1000", some reasonHelp), ("NG1001", none)] ∧
      strictComparisons.analyze w.snapshot w.host = strictComparisons.loop w.snapshot w.host := by
  have hrun : (Workspace.ofSources allowedSources).toOption.any (fun w =>
      (strictComparisons.analyze w.snapshot w.host).diagnostics.map (fun d => (d.code, d.help)) ==
        [("NG1000", some reasonHelp), ("NG1001", none)]) = true := by decide +kernel
  cases hw : Workspace.ofSources allowedSources with
  | error error =>
    rw [hw] at hrun
    cases hrun
  | ok w =>
    rw [hw] at hrun
    refine ⟨w, rfl, beq_iff_eq.mp hrun, analyze_eq_loop.2 strictComparisons w.snapshot w.host
      fun r hr => ?_⟩
    rcases List.mem_cons.mp hr with rfl | hr
    · exact analyze_eq_loop.1 "" _ _ .formatting
    · obtain rfl := List.mem_singleton.mp hr
      exact (analyze_eq_loop.1 "" _ _ .equality).withSeverity .error

end Engine

end SharpLint
