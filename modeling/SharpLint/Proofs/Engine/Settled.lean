import SharpLint.Proofs.Engine.Applied
import SharpLint.Proofs.Engine.DueFixes
import SharpLint.Proofs.Rule.Agree

/-!
# A batch leaves nothing due

In a snapshot whose documents have no directives, and where nothing is named like a type that formats,
a batch that succeeds has an edit for every place that is due, and all its edits clear their targets.
So nothing is due for the code when all edits are made, and nothing has become due for another code
where nothing was (`fixAll_settles`).
-/

namespace SharpLint

open SharpLint.Tree Skeleton

variable {config : Config} {s : Snapshot} {cause : Cause} {d : Document} {m : Node}

theorem ChangeSet.Meets.of_has {P : Tree → Edit → Prop} {c : ChangeSet} (h : c.Meets P s)
    {document : DocumentId} {e : Edit} (he : c.Has document e) (hd : s.find? document = some d) :
    P d.root e := by
  obtain ⟨entry, hentry, hsame, he⟩ := he
  obtain ⟨d', hd', hedits⟩ := h entry hentry
  have hparts := DocumentId.same_iff.mp hsame
  unfold Snapshot.find? DocumentId.same at hd hd'
  rw [hparts] at hd'
  obtain rfl := Option.some.inj (hd.symm.trans hd')
  exact hedits e he

namespace Engine

/-- What is due in the documents that are not excluded can be seen and cleared. -/
structure Ready (config : Config) (s : Snapshot) : Prop where
  sound : s.Sound
  unshadowed : ∀ d ∈ s.documents, config.isExcluded d.id.spelling = false →
    (s.scopeOf d.root).Unshadowed
  plain : ∀ d ∈ s.documents, config.isExcluded d.id.spelling = false →
    (Node.root d.root).tree.skeleton.plainTypes = true
  undirected : ∀ d ∈ s.documents, config.isExcluded d.id.spelling = false → d.hasDirective = false

theorem code_mem_fixableCodes (config : Config) (cause : Cause) :
    cause.code ∈ (ofConfig config).fixableCodes := by
  rw [fixableCodes_ofConfig]
  cases cause
  all_goals decide

/-- The diagnostics of a code are about what is due for it. -/
theorem exists_due_of_reported (hs : s.Sound) {x : Diagnostic}
    (hx : x ∈ ((ofConfig config).analyze s (Workspace.ofSnapshot s).host).withCode cause.code) :
    ∃ d n f m, d ∈ s.documents ∧ config.isExcluded d.id.spelling = false ∧
      x.Reports s (Workspace.ofSnapshot s).host d (s.scopeOf d.root).bindings f ∧ n.Inside d.root ∧
      f ∈ cause.find config.supportStart (s.scopeOf d.root).bindings n ∧ x.code = cause.code ∧
      cause.target? f.node = some m ∧ m.Inside d.root ∧
      m.isDue (s.scopeOf d.root) config.supportStart d.root cause = true := by
  obtain ⟨-, d, b, r, find, n, f, hd, hincluded, hbuiltin, hreports, hn, hf, hx'⟩ :=
    of_mem_withCode hx
  obtain rfl := Option.some.inj ((Workspace.bindings?_scopeOf hd).symm.trans hx'.bindings)
  obtain ⟨rfl, rfl⟩ := Cause.eq_of_reports hbuiltin hreports
  have hcode : x.code = cause.code := beq_iff_eq.mp (List.mem_filter.mp hx).2
  obtain ⟨m, htarget, hm, hdue⟩ :=
    Scope.exists_due_of_finding hn (hs.root d hd) hf (hx'.code.symm.trans hcode)
  exact ⟨d, n, f, m, hd, hincluded, hx', hn, hf, hcode, htarget, hm, hdue⟩

/-! ## The edits of a batch -/

section

variable {targets : List Diagnostic} {fixes : List Fix} {merged : ChangeSet} {x : Diagnostic}
  {fix : Fix} {host : Host} {e : Engine}

/-- No edit of a proposed fix is lost. -/
theorem Gathers.has (h : e.Gathers s host targets fixes merged) (hx : x ∈ targets)
    (hfix : e.fixesFor s host x = [fix]) {new : ChangeSet} (hnew : fix.changes s = .ok new)
    {document : DocumentId} {edit : Edit} (he : new.Has document edit) : merged.Has document edit := by
  have hmem : [fix] ∈ fixes.map fun fix => [fix] := by
    rw [← h.proposed, ← hfix]
    exact List.mem_map_of_mem hx
  obtain ⟨fix', hfix', heq⟩ := List.mem_map.mp hmem
  obtain rfl := List.singleton_inj.mp heq
  exact mergeChanges_has h.merged (.inr ⟨fix', hfix', new, hnew, he⟩)

/-- Every fix is that of a diagnostic. -/
theorem Gathers.exists_target (h : e.Gathers s host targets fixes merged) (hfix : fix ∈ fixes) :
    ∃ x ∈ targets, e.fixesFor s host x = [fix] := by
  have hmem : [fix] ∈ targets.map (e.fixesFor s host) := h.proposed ▸ List.mem_map_of_mem hfix
  exact List.mem_map.mp hmem

end

/-- The provider of the fixes for a cause. -/
def providerFor (config : Config) : Cause → Provider
  | .call | .text => Repair.FormatCall.provider config.formatModule
  | .visibility => Repair.Visibility.provider

theorem providerFor_of_ne (h : cause ≠ .visibility) :
    providerFor config cause = Repair.FormatCall.provider config.formatModule := by
  cases cause with
  | call => rfl
  | text => rfl
  | visibility => exact absurd rfl h

theorem fixesFor_of_cause {host : Host} {x : Diagnostic} (hx : x.code = cause.code) :
    (ofConfig config).fixesFor s host x = (providerFor config cause).propose s host x := by
  refine fixesFor_eq (code_mem_fixableCodes config cause) ?_ hx
  cases cause
  all_goals rfl

section

variable {fixes : List Fix} {merged : ChangeSet}

/-- All edits of a batch clear their targets. -/
theorem Gathers.clears (hs : Ready config s)
    (h : (ofConfig config).Gathers s (Workspace.ofSnapshot s).host
      (((ofConfig config).analyze s (Workspace.ofSnapshot s).host).withCode cause.code) fixes merged)
    (hprepared : Prepared cause.code s merged) :
    merged.Meets (fun root e => e.ClearsDue (s.scopeOf root) config.supportStart cause root) s := by
  by_cases hcause : cause = .visibility
  · subst hcause
    exact hprepared.makes.imp fun d hd e he =>
      Repair.Visibility.MakesInternal.clears he (hs.sound.root d hd)
  · refine mergeChanges_meets (fun fix hfix new hnew => ?_) ChangeSet.meets_empty h.merged
    obtain ⟨x, hx, hpropose⟩ := h.exists_target hfix
    obtain ⟨d, n, f, m, hd, hincluded, hreports, hn, hf, hcode, htarget, -, -⟩ :=
      exists_due_of_reported hs.sound hx
    rw [Cause.find_of_ne hcause] at hf
    obtain ⟨fix', r, hfix', hchanges, -, hclears⟩ := Repair.FormatCall.exists_clearing_fix
      config.supportStart config.formatModule hs.sound (hs.unshadowed d hd hincluded) hreports hn hf hcause hcode htarget
    rw [fixesFor_of_cause hcode, providerFor_of_ne hcause, hfix', List.singleton_inj] at hpropose
    subst hpropose
    obtain rfl := Except.ok.inj (hchanges.symm.trans hnew)
    exact ChangeSet.meets_empty.add hreports.find?_eq hclears

/-- What is due has an edit in the batch, if the code is active. -/
theorem Gathers.exists_edit (hs : Ready config s) (hactive : config.isActive cause.code = true)
    (h : (ofConfig config).Gathers s (Workspace.ofSnapshot s).host
      (((ofConfig config).analyze s (Workspace.ofSnapshot s).host).withCode cause.code) fixes merged)
    (hprepared : Prepared cause.code s merged) (hd : d ∈ s.documents)
    (hincluded : config.isExcluded d.id.spelling = false) (hm : m.Inside d.root)
    (hdue : m.isDue (s.scopeOf d.root) config.supportStart d.root cause = true) :
    ∃ e, merged.Has d.id e ∧ (Node.root d.root).findNode? e.target e.kind = some m := by
  have hroot := hs.sound.root d hd
  obtain ⟨n, f, hn, hkind, hf, hcode, htarget⟩ :=
    Scope.exists_finding_of_due hm hroot.shaped hdue
  obtain ⟨r, hr, hrule⟩ := List.any_eq_true.mp hactive
  obtain ⟨henabled, hreports⟩ := Bool.and_eq_true_iff.mp hrule
  obtain ⟨find, hbuiltin⟩ := exists_isBuiltIn hr
  obtain ⟨rfl, rfl⟩ := Cause.eq_of_reports hbuiltin hreports
  obtain ⟨x, hx, hreported⟩ := exists_diagnostic hd hincluded (hs.undirected d hd hincluded)
    (Workspace.bindings?_scopeOf hd) hn hr henabled hbuiltin hkind hf
  rw [hcode] at hx
  have hxcode : x.code = cause.code := beq_iff_eq.mp (List.mem_filter.mp hx).2
  by_cases hcause : cause = .visibility
  · subst hcause
    -- the fix makes the declaration internal, whatever else it changes
    obtain rfl := Option.some.inj htarget
    have hcollected : Collected config s (Workspace.ofSnapshot s).host merged := by
      refine ⟨hprepared.fits, hprepared.makes, fun y hy fix hfix new hnew document e he => ?_⟩
      have hycode := beq_iff_eq.mp (List.mem_filter.mp hy).2
      exact h.has hy ((fixesFor_of_cause (show y.code = Cause.visibility.code from hycode)).trans hfix) hnew he
    obtain ⟨e, he, htargets⟩ := exists_edit_of_reported hs.sound (Workspace.knows_host hs.sound)
      (Workspace.lists_host s) hcollected hd hm ((Scope.isDue_visibility_iff hm hroot.shaped).symm.trans hdue)
      hx hreported.place hreported.span
    have hcheck : f ∈ Rule.SupportNamespace.check config.supportStart (s.scopeOf d.root).bindings n := hf
    obtain ⟨-, hnode, -⟩ := Repair.Visibility.check_cases hn hcheck
    obtain ⟨hword, htight, -⟩ := Repair.Visibility.coveringNode_of_check hroot hn hcheck
    refine ⟨e, he, ?_⟩
    rw [htargets.1, htargets.2, hnode]
    exact hn.findNode?_eq (hn.sound hroot) hword fun a ha _ => hn.span_ne_of_tight hword ha htight
  · rw [Cause.find_of_ne hcause] at hf
    obtain ⟨fix, r, hfix, hchanges, hfound, -⟩ := Repair.FormatCall.exists_clearing_fix
      config.supportStart config.formatModule hs.sound (hs.unshadowed d hd hincluded) hreported hn hf
      hcause hxcode htarget
    have hproposed : (ofConfig config).fixesFor s (Workspace.ofSnapshot s).host x = [fix] := by
      rw [fixesFor_of_cause hxcode, providerFor_of_ne hcause, hfix]
    exact ⟨_, h.has hx hproposed hchanges (ChangeSet.has_add _), hfound⟩

end

/-! ## Batches that refuse overlaps -/

/-- Where overlaps are refused, a batch that succeeds has applied all its edits. -/
theorem mem_editsOf_iff {b : BatchResult} (hpolicy : config.engine.overlapPolicy = .reject)
    {code : String} {merged : ChangeSet}
    (hmerged : (ofConfig config).batchChanges s (Workspace.ofSnapshot s).host code = .ok merged)
    (happly : s.apply merged (ofConfig config).config.engine.overlapPolicy = .ok b.snapshot)
    {document : DocumentId} {e : Edit} :
    e ∈ (ofConfig config).editsOf s code document ↔ merged.Has document e := by
  have hedits : (ofConfig config).editsOf s code document =
      merged.acceptedFor s config.engine.overlapPolicy document := by
    rw [editsOf, hmerged]
    rfl
  rw [hedits]
  constructor
  · intro he
    cases hfound : merged.entries.find? (·.document.same document) with
    | none =>
      rw [ChangeSet.acceptedFor, hfound] at he
      cases he
    | some entry =>
      have hentry := List.mem_of_find?_eq_some hfound
      have hsame := List.find?_some hfound
      obtain ⟨d, root, -, haccepted, -⟩ := ChangeSet.acceptedFor_eq happly hentry hsame
      exact ⟨entry, hentry, hsame, mem_of_mem_acceptedEdits haccepted he⟩
  · rintro ⟨entry, hentry, hsame, he⟩
    obtain ⟨d, root, -, haccepted, hok, -⟩ := ChangeSet.acceptedFor_eq happly hentry hsame
    have hall := applyEdits_eq_ok.mpr ⟨_, haccepted, hok⟩
    rw [show (ofConfig config).config.engine.overlapPolicy = .reject from hpolicy] at hall haccepted
    rw [hpolicy]
    exact (all_accepted_iff haccepted).mpr (applicable_of_applyEdits hall) e he

/-- After a batch nothing is due for its code, if that is active, and nothing has become due for another
code. -/
theorem fixAll_settles {b : BatchResult} (hs : Ready config s)
    (hpolicy : config.engine.overlapPolicy = .reject) (hactive : config.isActive cause.code = true)
    (h : (ofConfig config).fixAll s (Workspace.ofSnapshot s).host cause.code = .ok b)
    (hd : d ∈ s.documents) (hincluded : config.isExcluded d.id.spelling = false) :
    ∃ root, b.snapshot.find? d.id = some { d with root := root } ∧
      root.Free (s.scopeOf d.root) config.supportStart cause ∧
      (Node.root root).tree.skeleton.plainTypes = true ∧
      ∀ other, other ≠ cause → d.root.Free (s.scopeOf d.root) config.supportStart other →
        root.Free (s.scopeOf d.root) config.supportStart other := by
  have hcode := code_mem_fixableCodes config cause
  have hhost := Workspace.knows_host hs.sound
  have hfind := s.find?_eq hd (DocumentId.same_iff.mpr rfl)
  obtain ⟨merged, hmerged, happly, -⟩ := exists_batchChanges h
  obtain ⟨fixes, hgathers⟩ := exists_gathers hcode hs.sound hhost hmerged
  have hprepared := prepared_batchChanges hcode hs.sound hhost hmerged
  have hmem {e : Edit} : e ∈ (ofConfig config).editsOf s cause.code d.id ↔ merged.Has d.id e :=
    mem_editsOf_iff hpolicy hmerged happly
  have hclears := hgathers.clears hs hprepared
  obtain ⟨root, hroot, document, located, hlocated, hfits, -, hok⟩ :=
    fixAll_rewrites hcode hs.sound h hfind
  have hedit (e : Edit) : (∃ l ∈ located, l.edit = e) ↔ merged.Has d.id e := by
    rw [← List.mem_map, hlocated, List.mem_reverse, hmem]
  have hclearing : Clearing (s.scopeOf d.root) config.supportStart cause d.root located := by
    refine ⟨hfits, hs.plain d hd hincluded, fun l hl => ?_, fun path hdue => ?_⟩
    · exact hclears.of_has ((hedit _).mp ⟨l, hl, rfl⟩) hfind
    · -- a place that is due is a node, and that has an edit
      obtain ⟨m, hm, rfl⟩ := exists_node_of_dueAt hdue
      have hshaped := (hs.sound.root d hd).shaped
      obtain ⟨e, he, hfound⟩ := hgathers.exists_edit hs hactive hprepared hd hincluded hm
        ((Node.dueAt_path_iff hm hshaped cause).mp hdue)
      obtain ⟨l, hl, rfl⟩ := (hedit e).mpr he
      exact ⟨l, hl, m, hfound, rfl⟩
  exact ⟨root, hroot, hclearing.run document hok⟩

end Engine

end SharpLint
