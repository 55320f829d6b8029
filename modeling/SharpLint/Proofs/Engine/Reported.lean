import SharpLint.Proofs.Engine.Analysis

/-!
# What is reported

Where no line of a document has a directive, everything that the rules find in it is reported
(`exists_diagnostic`). A code of which no enabled rule makes findings has no diagnostics
(`withCode_of_inactive`).
-/

namespace SharpLint

/-- A line of the document has a directive. -/
def Document.hasDirective (d : Document) : Bool :=
  (List.range (lineStarts d.chars).length).any fun before =>
    ((lineText? d.chars (before + 1)).bind Directive.ofLine?).isSome

/-- An enabled rule reports the code. -/
def Config.isActive (c : Config) (code : String) : Bool :=
  c.chosenRules.any fun r => c.isEnabled r.name && r.reports code

theorem Document.directive?_eq_none {d : Document} (h : d.hasDirective = false) (line : Nat) :
    (lineText? d.chars line).bind Directive.ofLine? = none := by
  cases line with
  | zero => rfl
  | succ before =>
    by_cases hlt : before < (lineStarts d.chars).length
    · have hline := List.any_eq_false.mp h before (List.mem_range.mpr hlt)
      rwa [Option.not_isSome_iff_eq_none] at hline
    · have hnone : (lineStarts d.chars)[before]? = none := List.getElem?_eq_none (by omega)
      unfold lineText?
      dsimp only
      rw [hnone]
      rfl

namespace Engine

variable {e : Engine} {c : Config} {s : Snapshot} {host : Host} {code : String} {x : Diagnostic}

theorem withDirective_eq {d : Document} (h : d.hasDirective = false) (r : Rule) (x : Diagnostic) :
    withDirective d.chars r x = some x := by
  have hnone : allowedBy? d.chars x.location.position.line x.code r.name = none := by
    unfold allowedBy?
    simp [Document.directive?_eq_none h]
  rw [withDirective, hnone]

/-- The diagnostics of an analysis are those that the rules report at the nodes of its documents. -/
theorem mem_analyze_iff (h : ∀ r ∈ e.rules, r.Orderly) : x ∈ (e.analyze s host).diagnostics ↔
    ∃ d b n r, d ∈ s.documents ∧ e.config.isExcluded d.id.spelling = false ∧
      host.bindings? d.id = some b ∧ n.Inside d.root ∧ r ∈ e.rules ∧ e.asks n.kind r = true ∧
      x ∈ e.reported d b n r := by
  have hwalk (d : Document) (n : Node) :
      n ∈ Node.preorder [] 0 d.rootNode.tree ↔ n.Inside d.root := by
    rw [← Node.mem_descendants_root, Node.descendants_eq, Node.above_root, Node.offset_root]
    rfl
  have hsorted (d : Document) (b : Bindings) :
      x ∈ stableSort Diagnostic.orderInDocument (e.loopDocument d b) ↔ x ∈ e.loopDocument d b :=
    (stableSort_perm _ _).mem_iff
  rw [analyze_eq_loop.2 e s host h, loop]
  simp only [List.mem_flatMap, List.mem_filter, isChecked, Bool.and_eq_true, Bool.not_eq_true']
  constructor
  · rintro ⟨d, ⟨hd, hincluded, -⟩, hx⟩
    cases hb : host.bindings? d.id with
    | none =>
      rw [hb] at hx
      cases hx
    | some b =>
      rw [hb, Option.map_some, Option.getD_some, hsorted] at hx
      obtain ⟨n, hn, hx⟩ := List.mem_flatMap.mp hx
      obtain ⟨r, hr, hx⟩ := List.mem_flatMap.mp hx
      obtain ⟨hr, hasks⟩ := List.mem_filter.mp hr
      exact ⟨d, b, n, r, hd, hincluded, hb, (hwalk d n).mp hn, hr, hasks, hx⟩
  · rintro ⟨d, b, n, r, hd, hincluded, hb, hn, hr, hasks, hx⟩
    refine ⟨d, ⟨hd, hincluded, by rw [hb]; rfl⟩, ?_⟩
    rw [hb, Option.map_some, Option.getD_some, hsorted]
    exact List.mem_flatMap.mpr ⟨n, (hwalk d n).mpr hn,
      List.mem_flatMap.mpr ⟨r, List.mem_filter.mpr ⟨hr, hasks⟩, hx⟩⟩

theorem orderly_ofConfig (c : Config) : ∀ r ∈ (ofConfig c).rules, r.Orderly := by
  intro r hr
  obtain ⟨find, hfind⟩ := exists_isBuiltIn hr
  exact hfind.orderly

/-- A diagnostic of a code is in a document that is not excluded, and the code is active. -/
theorem of_mem_withCode (h : x ∈ ((ofConfig c).analyze s host).withCode code) :
    c.isActive code = true ∧ ∃ d b r find n f, d ∈ s.documents ∧ c.isExcluded d.id.spelling = false ∧
      Rule.IsBuiltIn c.supportStart r find ∧ r.reports code = true ∧ n.Inside d.root ∧
      f ∈ find b n ∧ x.Reports s host d b f := by
  obtain ⟨hx, hcode⟩ := List.mem_filter.mp h
  obtain rfl := beq_iff_eq.mp hcode
  obtain ⟨d, b, n, r, hd, hincluded, hb, hn, hr, hasks, hx⟩ :=
    (mem_analyze_iff (orderly_ofConfig c)).mp hx
  obtain ⟨find, hfind⟩ := exists_isBuiltIn hr
  obtain ⟨y, hy, hdirective⟩ := List.mem_filterMap.mp hx
  rw [hfind.check_eq, Rule.reporting, List.map_map] at hy
  obtain ⟨f, hf, rfl⟩ := List.mem_map.mp hy
  obtain ⟨hcode, hlocation⟩ := of_withDirective hdirective
  have hreports : r.reports x.code = true := by
    rw [hcode]
    exact hfind.reports_of_find hf
  refine ⟨List.any_eq_true.mpr ⟨r, hr, ?_⟩, d, b, r, find, n, f, hd, hincluded, hfind, hreports, hn,
    hf, hd, hb, hcode, by rw [hlocation]; rfl, by rw [hlocation]; rfl⟩
  rw [Bool.and_eq_true]
  exact ⟨(Bool.and_eq_true_iff.mp hasks).1, hreports⟩

theorem withCode_of_inactive (h : c.isActive code = false) :
    ((ofConfig c).analyze s host).withCode code = [] := by
  rw [List.eq_nil_iff_forall_not_mem]
  intro x hx
  rw [(of_mem_withCode hx).1] at h
  cases h

/-- What an enabled rule finds in a document without directives is reported. -/
theorem exists_diagnostic {d : Document} {b : Bindings} {n : Node} {r : Rule}
    {find : Bindings → Node → List Finding} {f : Finding} (hd : d ∈ s.documents)
    (hincluded : c.isExcluded d.id.spelling = false) (hundirected : d.hasDirective = false)
    (hb : host.bindings? d.id = some b) (hn : n.Inside d.root) (hr : r ∈ c.chosenRules)
    (henabled : c.isEnabled r.name = true) (hfind : Rule.IsBuiltIn c.supportStart r find)
    (hkind : n.kind ∈ r.kinds) (hf : f ∈ find b n) :
    ∃ x ∈ ((ofConfig c).analyze s host).withCode f.descriptor.code, x.Reports s host d b f := by
  have hasks : (ofConfig c).asks n.kind r = true := by
    rw [asks, Bool.and_eq_true, List.contains_iff_mem]
    exact ⟨henabled, hkind⟩
  have hcheck := List.mem_map_of_mem (f := NodeContext.report ⟨n, d.id, d.chars, b, r.severity⟩ r.name)
    hf
  rw [← Rule.reporting, ← hfind.check_eq] at hcheck
  refine ⟨_, List.mem_filter.mpr ⟨(mem_analyze_iff (orderly_ofConfig c)).mpr ⟨d, b, n, r, hd,
    hincluded, hb, hn, hr, hasks, List.mem_filterMap.mpr ⟨_, List.mem_map_of_mem hcheck,
      withDirective_eq hundirected r _⟩⟩, beq_self_eq_true _⟩, hd, hb, rfl, rfl, rfl⟩

end Engine

end SharpLint
