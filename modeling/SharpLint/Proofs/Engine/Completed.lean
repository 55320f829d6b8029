import SharpLint.Proofs.Change.Accepted
import SharpLint.Proofs.Engine.FixAll
import SharpLint.Proofs.Engine.Batches

/-!
# Fixes that are counted and fixes that are made

A batch counts one fix for each diagnostic of its code before the edits are chosen. Where overlapping
edits are dropped, a fix can be counted although none of its edits is applied. The accepted edits of a
batch are all edits of its fixes, and so every counted fix is made, exactly when no two different edits
share text:

    b.fixed = number of diagnostics with a fix that is made ↔ no edits overlap
                                                                (fixed_eq_completed_iff)

A call inside the argument of another call is counted and lost (`fixed_ne_completed_nested`).
-/

namespace SharpLint

namespace Engine

/-! ## The changes of a batch -/

/-- Each diagnostic has one fix, and the set has the changes of all these fixes. -/
structure Gathers (e : Engine) (s : Snapshot) (host : Host) (targets : List Diagnostic)
    (fixes : List Fix) (merged : ChangeSet) : Prop where
  proposed : targets.map (e.fixesFor s host) = fixes.map fun fix => [fix]
  merged : mergeChanges s .empty fixes = .ok merged

/-- The merged changes of a batch. -/
def batchChanges (e : Engine) (s : Snapshot) (host : Host) (code : String) :
    Except FixError ChangeSet :=
  match e.providers.find? (·.handles code) with
  | none => .error (.noProvider code)
  | some p =>
    mergeChanges s .empty (chooseFixes (((e.analyze s host).withCode code).map (p.propose s host)))

variable {e : Engine} {s : Snapshot} {host : Host} {code : String} {b : BatchResult}

/-- A batch that succeeds has applied its merged changes. -/
theorem exists_batchChanges (h : e.fixAll s host code = .ok b) :
    ∃ merged, e.batchChanges s host code = .ok merged ∧
      s.apply merged e.config.engine.overlapPolicy = .ok b.snapshot ∧
      b.documents = merged.documents := by
  obtain ⟨p, merged, hp, hmerged, happly, hdocuments, -⟩ := fixAll_eq_ok h
  refine ⟨merged, ?_, happly, hdocuments⟩
  rw [batchChanges, hp]
  exact hmerged

theorem exists_changes_of_mergeChanges {fixes : List Fix} {merged c : ChangeSet}
    (h : mergeChanges s merged fixes = .ok c) : ∀ fix ∈ fixes, ∃ new, fix.changes s = .ok new := by
  induction fixes generalizing merged with
  | nil => exact nofun
  | cons fix fixes ih =>
    obtain ⟨new, hnew, h⟩ := mergeChanges_cons h
    exact List.forall_mem_cons.mpr ⟨⟨new, hnew⟩, ih h⟩

/-- Every edit of the merged set is one of a fix. -/
theorem of_mergeChanges_has {fixes : List Fix} {merged c : ChangeSet}
    (h : mergeChanges s merged fixes = .ok c) {document : DocumentId} {edit : Edit}
    (he : c.Has document edit) : merged.Has document edit ∨
      ∃ fix ∈ fixes, ∃ new, fix.changes s = .ok new ∧ new.Has document edit := by
  induction fixes generalizing merged with
  | nil =>
    obtain rfl := Except.ok.inj h
    exact .inl he
  | cons fix fixes ih =>
    obtain ⟨new, hnew, h⟩ := mergeChanges_cons h
    rcases ih h with he | ⟨other, hother, he⟩
    · rcases ChangeSet.of_has_merge he with he | he
      · exact .inl he
      · exact .inr ⟨fix, List.mem_cons_self, new, hnew, he⟩
    · exact .inr ⟨other, List.mem_cons_of_mem fix hother, he⟩

/-! ## The built-in providers -/

theorem fixableCodes_ofConfig (c : Config) :
    (ofConfig c).fixableCodes = ["NG1001", "NG1005", "NG1006"] := by
  have hcodes : (ofConfig c).providers.flatMap Provider.codes = ["NG1001", "NG1006", "NG1005"] := rfl
  rw [fixableCodes, hcodes]
  decide

/-- One provider handles a code that can be fixed. -/
theorem fixesFor_eq {c : Config} (hcode : code ∈ (ofConfig c).fixableCodes) {p : Provider}
    (hp : (ofConfig c).providers.find? (·.handles code) = some p) {d : Diagnostic}
    (hd : d.code = code) : (ofConfig c).fixesFor s host d = p.propose s host d := by
  rw [fixableCodes_ofConfig] at hcode
  subst hd
  simp only [List.mem_cons, List.not_mem_nil, or_false] at hcode
  have hfilter : (ofConfig c).providers.filter (·.handles d.code) = [p] := by
    rcases hcode with h | h | h
    all_goals
      rw [h] at hp ⊢
      obtain rfl := Option.some.inj hp
      rfl
  rw [fixesFor, hfilter, List.flatMap_singleton]

/-! ## Fixes that are made -/

/-- A fix of the diagnostic has all its edits among those that are applied. -/
def completes (e : Engine) (s : Snapshot) (host : Host) (merged : ChangeSet) (d : Diagnostic) : Bool :=
  (e.fixesFor s host d).any fun fix => (fix.changes s).toOption.any fun changes =>
    changes.entries.all fun entry => entry.edits.all fun edit =>
      (merged.acceptedFor s e.config.engine.overlapPolicy entry.document).contains edit

/-- The diagnostics of a code with a fix that is made. -/
def completed (e : Engine) (s : Snapshot) (host : Host) (code : String) (merged : ChangeSet) :
    List Diagnostic :=
  ((e.analyze s host).withCode code).filter (e.completes s host merged)

theorem completes_iff {merged : ChangeSet} {d : Diagnostic} {fix : Fix}
    (hfix : e.fixesFor s host d = [fix]) : e.completes s host merged d = true ↔
      ∃ new, fix.changes s = .ok new ∧ ∀ entry ∈ new.entries, ∀ edit ∈ entry.edits,
        edit ∈ merged.acceptedFor s e.config.engine.overlapPolicy entry.document := by
  rw [completes, hfix]
  cases hchanges : fix.changes s with
  | error cause => simp [hchanges, Except.toOption]
  | ok new => simp [hchanges, Except.toOption]

/-- All fixes are made exactly when all merged edits are applied. -/
theorem Gathers.all_completes_iff {targets : List Diagnostic} {fixes : List Fix} {merged : ChangeSet}
    (h : e.Gathers s host targets fixes merged) :
    (∀ d ∈ targets, e.completes s host merged d = true) ↔
      ∀ entry ∈ merged.entries, ∀ edit ∈ entry.edits,
        edit ∈ merged.acceptedFor s e.config.engine.overlapPolicy entry.document := by
  constructor
  · intro hall entry hentry edit hedit
    have hhas : merged.Has entry.document edit :=
      ⟨entry, hentry, DocumentId.same_iff.mpr rfl, hedit⟩
    obtain ⟨first, hfirst, -⟩ | ⟨fix, hfix, new, hnew, own, hown, hsame, hedit⟩ :=
      of_mergeChanges_has h.merged hhas
    · cases hfirst
    -- the edit is one of a fix, and that fix is the one of a diagnostic
    have hmem : [fix] ∈ targets.map (e.fixesFor s host) :=
      h.proposed ▸ List.mem_map_of_mem hfix
    obtain ⟨d, hd, hpropose⟩ := List.mem_map.mp hmem
    obtain ⟨new', hnew', hedits⟩ := (completes_iff hpropose).mp (hall d hd)
    obtain rfl := Except.ok.inj (hnew.symm.trans hnew')
    rw [← merged.acceptedFor_congr s _ hsame]
    exact hedits own hown edit hedit
  · intro hall d hd
    have hmem : e.fixesFor s host d ∈ fixes.map fun fix => [fix] :=
      h.proposed ▸ List.mem_map_of_mem hd
    obtain ⟨fix, hfix, hpropose⟩ := List.mem_map.mp hmem
    obtain ⟨new, hnew⟩ := exists_changes_of_mergeChanges h.merged fix hfix
    refine (completes_iff hpropose.symm).mpr ⟨new, hnew, fun own hown edit hedit => ?_⟩
    obtain ⟨entry, hentry, hsame, hedit⟩ := mergeChanges_has h.merged (.inr ⟨fix, hfix, new, hnew,
      own, hown, DocumentId.same_iff.mpr rfl, hedit⟩)
    rw [← merged.acceptedFor_congr s _ hsame]
    exact hall entry hentry edit hedit

/-- The changes of a batch for a code that can be fixed: those of one fix for each diagnostic. -/
theorem exists_gathers {config : Config} (hcode : code ∈ (ofConfig config).fixableCodes)
    (hs : s.Sound) (hhost : host.Knows s) {merged : ChangeSet}
    (h : (ofConfig config).batchChanges s host code = .ok merged) :
    ∃ fixes, (ofConfig config).Gathers s host (((ofConfig config).analyze s host).withCode code)
      fixes merged := by
  obtain ⟨p, key, hp, -, hserves⟩ := exists_provider hcode
  obtain ⟨fixes, hmap, -, hfixes⟩ := exists_fixes (hserves s host hs hhost)
  rw [batchChanges, hp] at h
  dsimp only at h
  rw [hmap, chooseFixes_map fun fix hfix => (hfixes fix hfix).1] at h
  refine ⟨fixes, ?_, h⟩
  rw [← hmap]
  exact List.map_congr_left fun d hd =>
    fixesFor_eq hcode hp (beq_iff_eq.mp (List.mem_filter.mp hd).2)

/-- Under `keepFirst` a batch for source texts always succeeds and counts every diagnostic of the code.
As many fixes are made exactly when the edits of each document can all be applied: different ones share
no text. -/
theorem fixed_eq_completed_iff {config : Config} {sources : List (String × String)} {w : Workspace}
    (hw : Workspace.ofSources sources = .ok w) (hcode : code ∈ (ofConfig config).fixableCodes)
    (hpolicy : config.engine.overlapPolicy = .keepFirst) :
    ∃ b merged, (ofConfig config).fixAll w.snapshot w.host code = .ok b ∧
      (ofConfig config).batchChanges w.snapshot w.host code = .ok merged ∧
      w.snapshot.apply merged .keepFirst = .ok b.snapshot ∧
      b.fixed = (((ofConfig config).analyze w.snapshot w.host).withCode code).length ∧
      (b.fixed = ((ofConfig config).completed w.snapshot w.host code merged).length ↔
        ∀ entry ∈ merged.entries, ∃ d, w.snapshot.find? entry.document = some d ∧
          Applicable d.rootNode entry.edits) := by
  have hs := Workspace.sound_snapshot hw
  have hhost := Workspace.knows_snapshot hw
  obtain ⟨b, hb, hfixed, -⟩ | ⟨hreject, -⟩ := fixAll_outcome hcode hs hhost
  swap
  · rw [hpolicy] at hreject
    cases hreject
  obtain ⟨merged, hmerged, happly, -⟩ := exists_batchChanges hb
  obtain ⟨fixes, hgathers⟩ := exists_gathers hcode hs hhost hmerged
  refine ⟨b, merged, hb, hmerged, hpolicy ▸ happly, hfixed, ?_⟩
  have hlength : b.fixed = ((ofConfig config).completed w.snapshot w.host code merged).length ↔
      ∀ d ∈ ((ofConfig config).analyze w.snapshot w.host).withCode code,
        (ofConfig config).completes w.snapshot w.host merged d = true := by
    rw [hfixed, completed, eq_comm, List.length_filter_eq_length_iff]
  rw [hlength, hgathers.all_completes_iff]
  refine forall₂_congr fun entry hentry => ?_
  obtain ⟨d, root, hd, haccepted, -⟩ :=
    ChangeSet.acceptedFor_eq happly hentry (DocumentId.same_iff.mpr rfl)
  rw [all_accepted_iff haccepted]
  constructor
  · exact fun h => ⟨d, hd, h⟩
  · rintro ⟨d', hd', h⟩
    obtain rfl := Option.some.inj (hd.symm.trans hd')
    exact h

/-- The built-in configuration, with edits that overlap dropped. -/
def keepFirstConfig : Config :=
  { Config.default with engine := { Config.default.engine with overlapPolicy := .keepFirst } }

/-- Two calls side by side. -/
def calledTwice : String :=
  "class C \x7b string M(float x, float y) \x7b return x.ToString() + y.ToString(); \x7d \x7d"

theorem fixed_eq_completed_iff_calledTwice :
    ∃ w b merged, Workspace.ofSources [("A.cs", calledTwice)] = .ok w ∧
      "NG1001" ∈ (ofConfig keepFirstConfig).fixableCodes ∧
      keepFirstConfig.engine.overlapPolicy = .keepFirst ∧
      (ofConfig keepFirstConfig).fixAll w.snapshot w.host "NG1001" = .ok b ∧
      (ofConfig keepFirstConfig).batchChanges w.snapshot w.host "NG1001" = .ok merged ∧
      b.fixed = 2 ∧
      (b.fixed = ((ofConfig keepFirstConfig).completed w.snapshot w.host "NG1001" merged).length ↔
        ∀ entry ∈ merged.entries, ∃ d, w.snapshot.find? entry.document = some d ∧
          Applicable d.rootNode entry.edits) := by
  have hread : (Workspace.ofSources [("A.cs", calledTwice)]).toOption.any (fun w =>
      (((ofConfig keepFirstConfig).analyze w.snapshot w.host).withCode "NG1001").length == 2) =
        true := by
    decide +kernel
  have hcode : "NG1001" ∈ (ofConfig keepFirstConfig).fixableCodes := by
    rw [fixableCodes_ofConfig]
    exact List.mem_cons_self
  obtain ⟨w, hw, hread⟩ := Workspace.exists_of_any hread
  obtain ⟨b, merged, hb, hmerged, -, hfixed, hiff⟩ := fixed_eq_completed_iff hw hcode rfl
  exact ⟨w, b, merged, hw, hcode, rfl, hb, hmerged, hfixed.trans (beq_iff_eq.mp hread), hiff⟩

/-- A call in the argument of another call. -/
def nestedCall : String :=
  "class C \x7b string M(float x, float y) \x7b return x.ToString(y.ToString()); \x7d \x7d"

/-- Both calls are counted, and the edit of the inner one is dropped. -/
theorem fixed_ne_completed_nested :
    ∃ w b merged, Workspace.ofSources [("A.cs", nestedCall)] = .ok w ∧
      keepFirstConfig.engine.overlapPolicy = .keepFirst ∧
      (ofConfig keepFirstConfig).fixAll w.snapshot w.host "NG1001" = .ok b ∧
      (ofConfig keepFirstConfig).batchChanges w.snapshot w.host "NG1001" = .ok merged ∧
      b.fixed = 2 ∧
      ((ofConfig keepFirstConfig).completed w.snapshot w.host "NG1001" merged).length = 1 := by
  have hrun : (Workspace.ofSources [("A.cs", nestedCall)]).toOption.any (fun w =>
      ((ofConfig keepFirstConfig).fixAll w.snapshot w.host "NG1001").toOption.any fun b =>
        ((ofConfig keepFirstConfig).batchChanges w.snapshot w.host "NG1001").toOption.any
          fun merged => b.fixed == 2 &&
            ((ofConfig keepFirstConfig).completed w.snapshot w.host "NG1001" merged).length == 1) =
              true := by
    decide +kernel
  obtain ⟨w, hw, hrun⟩ := Workspace.exists_of_any hrun
  cases hb : (ofConfig keepFirstConfig).fixAll w.snapshot w.host "NG1001" with
  | error e => rw [hb] at hrun; cases hrun
  | ok b =>
    rw [hb] at hrun
    cases hmerged : (ofConfig keepFirstConfig).batchChanges w.snapshot w.host "NG1001" with
    | error e => rw [hmerged] at hrun; cases hrun
    | ok merged =>
      rw [hmerged] at hrun
      obtain ⟨hfixed, hcompleted⟩ := Bool.and_eq_true_iff.mp hrun
      exact ⟨w, b, merged, hw, rfl, hb, hmerged, beq_iff_eq.mp hfixed, beq_iff_eq.mp hcompleted⟩

end Engine

end SharpLint
