import SharpLint.Proofs.Engine.Completed
import SharpLint.Proofs.Engine.Counting
import SharpLint.Proofs.Engine.Hidden
import SharpLint.Proofs.Engine.Rerun
import SharpLint.Proofs.Repair.Restated

/-!
# Edits that a run applies

A batch for a code gathers the changes of one fix for each diagnostic (`exists_gathers`). They fit the
snapshot, name no document without an edit, and for each code they all do one thing, so that the whole
set is prepared (`prepared_batchChanges`):

    MakesFor code root e        e makes a declaration internal, or adds names where it formats

In each document the batch makes one tree of another by the edits that it accepts (`fixAll_rewrites`). A
run does so batch by batch: every document that it lists has an edit that was applied (`appliedTo_of_listed`),
and the names in a document grow with every edit that formats (`rewrites_run`).
-/

namespace SharpLint

open Repair.Visibility

/-! ## Sets without empty entries -/

namespace ChangeSet

variable {c : ChangeSet}

/-- Every document that is named has an edit. -/
def Filled (c : ChangeSet) : Prop := ∀ entry ∈ c.entries, entry.edits ≠ []

theorem filled_empty : empty.Filled := nofun

theorem Filled.addAll (h : c.Filled) {new : DocumentEdits} (hnew : new.edits ≠ []) :
    (c.addAll new).Filled := by
  intro entry hentry
  obtain rfl | hentry | ⟨old, hold, -, rfl⟩ := upsert_cases hentry
  · exact hnew
  · exact h entry hentry
  · exact List.append_ne_nil_of_left_ne_nil (h old hold) _

theorem Filled.add (h : c.Filled) (document : DocumentId) (e : Edit) : (c.add document e).Filled :=
  h.addAll (List.cons_ne_nil e [])

theorem Filled.merge (h : c.Filled) {new : ChangeSet} (hnew : new.Filled) : (c.merge new).Filled :=
  List.foldlRecOn new.entries ChangeSet.addAll (motive := Filled) h
    fun _ hc entry hentry => hc.addAll (hnew entry hentry)

end ChangeSet

/-- Of some edits at least one is accepted. -/
theorem acceptedEdits_ne_nil {document : DocumentId} {root : Tree} {edits accepted : List Edit}
    {policy : OverlapPolicy} (h : acceptedEdits document root edits policy = .ok accepted)
    (hedits : edits ≠ []) : accepted ≠ [] := by
  obtain ⟨located, kept, hlocated, hkept, rfl⟩ := acceptedEdits_eq_ok.mp h
  obtain ⟨e, he⟩ := List.exists_mem_of_ne_nil edits hedits
  have hperm := stableSort_perm Located.order located
  cases hsorted : stableSort Located.order located with
  | nil =>
    rw [hsorted] at hperm
    have hdistinct := (mem_distinctEdits edits e).mpr he
    rw [← (locateEdits_ok hlocated).1, ← hperm.nil_eq] at hdistinct
    cases hdistinct
  | cons first others =>
    -- the first edit overlaps nothing that was accepted before
    rw [hsorted, acceptEdits] at hkept
    have hkeeps := (mem_of_acceptEdits (P := fun _ => False) hkept
      (List.pairwise_of_forall fun _ _ h => h.elim) fun _ _ _ _ h => h.elim).1 first (by simp)
    exact List.ne_nil_of_mem (List.mem_map_of_mem hkeeps)

namespace Engine

/-! ## What the fixes for a code do -/

/-- What every edit for the code does in a tree. -/
def MakesFor (code : String) (root : Tree) (e : Edit) : Prop :=
  if code = Rule.SupportNamespace.descriptor.code then MakesInternal root e else e.AddsNames root

/-- Changes for the code that can be made in the snapshot. -/
structure Prepared (code : String) (s : Snapshot) (c : ChangeSet) : Prop where
  fits : c.Fits s
  filled : c.Filled
  makes : c.Meets (MakesFor code) s

variable {config : Config} {s : Snapshot} {host : Host} {code : String}

theorem prepared_empty : Prepared code s .empty :=
  ⟨ChangeSet.fits_empty s, ChangeSet.filled_empty, ChangeSet.meets_empty⟩

theorem Prepared.merge {c new : ChangeSet} (h : Prepared code s c) (hnew : Prepared code s new) :
    Prepared code s (c.merge new) :=
  ⟨h.fits.merge hnew.fits, h.filled.merge hnew.filled, h.makes.merge hnew.makes⟩

/-- The changes of a fix that is proposed for a diagnostic of the code. -/
theorem prepared_changes (hs : s.Sound) (hhost : host.Knows s) {d : Diagnostic}
    (hd : d ∈ ((ofConfig config).analyze s host).withCode code) {fix : Fix}
    (hfix : fix ∈ (ofConfig config).fixesFor s host d) {new : ChangeSet}
    (hnew : fix.changes s = .ok new) : Prepared code s new := by
  have hcode : d.code = code := beq_iff_eq.mp (List.mem_filter.mp hd).2
  obtain ⟨p, hp, hfix⟩ := List.mem_flatMap.mp hfix
  obtain ⟨hp, hhandles⟩ := List.mem_filter.mp hp
  obtain ⟨document, b, r, find, n, f, hr, hreports, hn, hf, hd⟩ := exists_finding_of_code hd
  have hcodes : code ∈ p.codes := hcode ▸ List.contains_iff_mem.mp hhandles
  have hproviders : p ∈ [Repair.FormatCall.provider config.formatModule, Repair.Visibility.provider] :=
    hp
  rw [List.mem_cons, List.mem_singleton] at hproviders
  rcases hproviders with rfl | rfl
  · obtain ⟨rfl, rfl⟩ := (hr.eq_of_reports hreports).1 hcodes
    obtain ⟨e, hchanges, hfits, hadds⟩ :=
      Repair.FormatCall.exists_edit_addsNames config.formatModule hs hd hn hf hfix
    obtain rfl := Except.ok.inj (hchanges.symm.trans hnew)
    have hformat : code ∈ [Rule.Formatting.explicitDescriptor.code,
        Rule.Formatting.implicitDescriptor.code] := hcodes
    have hother : code ≠ Rule.SupportNamespace.descriptor.code := by
      rintro rfl
      exact absurd hformat (by decide)
    have hmakes : MakesFor code document.root e := by
      rw [MakesFor, if_neg hother]
      exact hadds
    have hfind := hd.find?_eq
    exact ⟨ChangeSet.fits_single hfind hfits, ChangeSet.filled_empty.add _ _,
      ChangeSet.meets_empty.add hfind hmakes⟩
  · obtain ⟨rfl, rfl⟩ := (hr.eq_of_reports hreports).2 hcodes
    obtain ⟨title, declarations, hpropose, hin, -⟩ := exists_proposal hs hhost hd hn hf
    rw [hpropose] at hfix
    obtain rfl := List.mem_singleton.mp hfix
    obtain rfl := Except.ok.inj hnew
    have hsupport : code = Rule.SupportNamespace.descriptor.code := List.mem_singleton.mp hcodes
    refine ⟨fits_changes hs hin, changes_rec hs hin ChangeSet.filled_empty
      fun c hc r d e _ _ _ => hc.add r.document e, (meets_changes hs hin).imp fun d _ e he => ?_⟩
    rw [MakesFor, if_pos hsupport]
    exact he

/-- The merged changes of a batch. -/
theorem prepared_batchChanges (hcode : code ∈ (ofConfig config).fixableCodes) (hs : s.Sound)
    (hhost : host.Knows s) {merged : ChangeSet}
    (h : (ofConfig config).batchChanges s host code = .ok merged) : Prepared code s merged := by
  obtain ⟨fixes, hgathers⟩ := exists_gathers hcode hs hhost h
  refine mergeChanges_rec (fun _ _ hc hnew => hc.merge hnew) (fun fix hfix new hnew => ?_)
    prepared_empty hgathers.merged
  have hmem : [fix] ∈ (((ofConfig config).analyze s host).withCode code).map
      ((ofConfig config).fixesFor s host) := hgathers.proposed ▸ List.mem_map_of_mem hfix
  obtain ⟨d, hd, hpropose⟩ := List.mem_map.mp hmem
  exact prepared_changes hs hhost hd (hpropose ▸ List.mem_singleton_self fix) hnew

/-! ## What a batch does to a document -/

/-- The edits of a batch that are applied in a document, from left to right. -/
def editsOf (e : Engine) (s : Snapshot) (code : String) (document : DocumentId) : List Edit :=
  ((e.batchChanges s (Workspace.ofSnapshot s).host code).toOption.map
    (·.acceptedFor s e.config.engine.overlapPolicy document)).getD []

/-- Edits for the code, from left to right, make the second tree of the first one. -/
def Rewrites (code : String) (root : Tree) (edits : List Edit) (new : Tree) : Prop :=
  ∃ (document : DocumentId) (located : List Located), located.map Located.edit = edits.reverse ∧
    FitsFromRight root located ∧ (∀ l ∈ located, MakesFor code root l.edit) ∧
    replaceTargets document root (located.map Located.edit) = .ok new

namespace Rewrites

variable {root new : Tree} {edits : List Edit}

theorem refl (code : String) (document : DocumentId) (h : root.Sound) : Rewrites code root [] root :=
  ⟨document, [], rfl, ⟨h, nofun, nofun, .nil⟩, nofun, rfl⟩

theorem eq_of_nil (h : Rewrites code root [] new) : new = root := by
  obtain ⟨document, located, hedits, -, -, hok⟩ := h
  rw [hedits] at hok
  exact (Except.ok.inj hok).symm

/-- Every edit that formats adds to the names, and no edit takes names away. -/
theorem nameBytes_le (h : Rewrites code root edits new) : nameBytes root.tokens +
    (if code = Rule.SupportNamespace.descriptor.code then 0 else edits.length) ≤
      nameBytes new.tokens := by
  obtain ⟨document, located, hedits, hfits, hmakes, hok⟩ := h
  have hlength : located.length = edits.length := by
    simpa using congrArg List.length hedits
  split
  · rename_i hsupport
    have hkeep : ∀ l ∈ located, ∀ n, (Node.root root).findNode? l.edit.target l.edit.kind = some n →
        nameBytes n.tree.tokens + 0 ≤ nameBytes l.edit.replacement.tokens := by
      intro l hl n hn
      obtain ⟨m, hm, hkind, hnew⟩ : MakesInternal root l.edit := by
        have hmake := hmakes l hl
        rwa [MakesFor, if_pos hsupport] at hmake
      obtain rfl := Option.some.inj (hn.symm.trans hm)
      exact Nat.le_of_eq (nameBytes_withInternal
        ((Node.Inside.of_findNode? hn).shaped hfits.sound.shaped) hkind hnew)
    simpa using nameBytes_replaceTargets document hfits hkeep hok
  · rename_i hother
    have hgrow : ∀ l ∈ located, ∀ n, (Node.root root).findNode? l.edit.target l.edit.kind = some n →
        nameBytes n.tree.tokens + 1 ≤ nameBytes l.edit.replacement.tokens := by
      intro l hl n hn
      obtain ⟨m, hm, hlt⟩ : l.edit.AddsNames root := by
        have hmake := hmakes l hl
        rwa [MakesFor, if_neg hother] at hmake
      obtain rfl := Option.some.inj (hn.symm.trans hm)
      exact hlt
    have hbytes := nameBytes_replaceTargets document hfits hgrow hok
    omega

end Rewrites

variable {b : BatchResult} {document : DocumentId} {d : Document}

/-- A document that the batch names is one of the snapshot, and has an edit that is applied. -/
theorem editsOf_of_named (hcode : code ∈ (ofConfig config).fixableCodes) (hs : s.Sound)
    (h : (ofConfig config).fixAll s (Workspace.ofSnapshot s).host code = .ok b)
    (hnamed : ∃ id ∈ b.documents, id.same document = true) :
    (∃ d, s.find? document = some d) ∧ (ofConfig config).editsOf s code document ≠ [] := by
  obtain ⟨merged, hmerged, happly, hdocuments⟩ := exists_batchChanges h
  have hprepared := prepared_batchChanges hcode hs (Workspace.knows_host hs) hmerged
  obtain ⟨id, hid, hsame⟩ := hnamed
  rw [hdocuments] at hid
  obtain ⟨entry, hentry, rfl⟩ := List.mem_map.mp hid
  obtain ⟨d, root, hd, haccepted, -, -⟩ :=
    ChangeSet.acceptedFor_eq happly hentry hsame
  have hparts := DocumentId.same_iff.mp hsame
  refine ⟨⟨d, ?_⟩, ?_⟩
  · unfold Snapshot.find? DocumentId.same at hd ⊢
    rwa [← hparts]
  · rw [editsOf, hmerged]
    exact acceptedEdits_ne_nil haccepted (hprepared.filled entry hentry)

/-- The edits of a batch make the new tree of a document of the old one. -/
theorem fixAll_rewrites (hcode : code ∈ (ofConfig config).fixableCodes) (hs : s.Sound)
    (h : (ofConfig config).fixAll s (Workspace.ofSnapshot s).host code = .ok b)
    (hd : s.find? document = some d) : ∃ root,
      b.snapshot.find? document = some { d with root := root } ∧
        Rewrites code d.root ((ofConfig config).editsOf s code document) root := by
  obtain ⟨merged, hmerged, happly, hdocuments⟩ := exists_batchChanges h
  have hprepared := prepared_batchChanges hcode hs (Workspace.knows_host hs) hmerged
  have hedits : (ofConfig config).editsOf s code document =
      merged.acceptedFor s config.engine.overlapPolicy document := by
    rw [editsOf, hmerged]
    rfl
  have hroot := hs.root d (Snapshot.mem_of_find? hd).1
  by_cases hnamed : ∃ entry ∈ merged.entries, entry.document.same document = true
  · obtain ⟨entry, hentry, hsame⟩ := hnamed
    obtain ⟨own, root, hown, haccepted, hok, hfind⟩ :=
      ChangeSet.acceptedFor_eq happly hentry hsame
    have hparts := DocumentId.same_iff.mp hsame
    have hsearch (t : Snapshot) : t.find? document = t.find? entry.document := by
      unfold Snapshot.find? DocumentId.same
      rw [hparts]
    rw [hsearch] at hd ⊢
    obtain rfl := Option.some.inj (hd.symm.trans hown)
    obtain ⟨d', hd', hfits⟩ := hprepared.fits.entries entry hentry
    obtain rfl := Option.some.inj (hd.symm.trans hd')
    obtain ⟨d', hd', hmakes⟩ := hprepared.makes entry hentry
    obtain rfl := Option.some.inj (hd.symm.trans hd')
    obtain ⟨located, hlocated, hright⟩ := exists_fitsFromRight hroot hfits haccepted
    refine ⟨root, hfind, entry.document, located, hedits ▸ hlocated, hright, fun l hl => ?_,
      hlocated ▸ hok⟩
    have hmem : l.edit ∈ (merged.acceptedFor s config.engine.overlapPolicy document).reverse :=
      hlocated ▸ List.mem_map_of_mem hl
    exact hmakes _ (mem_of_mem_acceptedEdits haccepted (List.mem_reverse.mp hmem))
  · -- a document that the batch does not name is as it was
    have hnone : merged.entries.find? (·.document.same document) = none := by
      rw [List.find?_eq_none]
      exact fun entry hentry hsame => hnamed ⟨entry, hentry, hsame⟩
    have hnil : (ofConfig config).editsOf s code document = [] := by
      rw [hedits, ChangeSet.acceptedFor, hnone]
      rfl
    have hkept := (fixAll_kept h).find?_eq document fun other hother => by
      rw [hdocuments] at hother
      obtain ⟨entry, hentry, rfl⟩ := List.mem_map.mp hother
      rw [DocumentId.same_comm, Bool.eq_false_iff]
      exact fun hsame => hnamed ⟨entry, hentry, hsame⟩
    rw [hkept, hnil]
    exact ⟨d.root, hd, .refl code document hroot⟩

/-! ## What a run does to a document -/

/-- An edit that a run applies, with the code of its batch. -/
structure AppliedEdit where
  code : String
  edit : Edit

/-- The edits that a run applies in a document, batch by batch. -/
def appliedTo (e : Engine) (document : DocumentId) : Snapshot → List String → List AppliedEdit
  | _, [] => []
  | s, code :: codes =>
    match e.fixAll s (Workspace.ofSnapshot s).host code with
    | .ok b => (e.editsOf s code document).map (⟨code, ·⟩) ++ appliedTo e document b.snapshot codes
    | .error _ => appliedTo e document s codes

theorem code_of_mem_appliedTo {e : Engine} {codes : List String} {a : AppliedEdit}
    (h : a ∈ e.appliedTo document s codes) : a.code ∈ codes := by
  induction codes generalizing s with
  | nil => cases h
  | cons code codes ih =>
    rw [appliedTo] at h
    split at h
    · rcases List.mem_append.mp h with h | h
      · obtain ⟨edit, -, rfl⟩ := List.mem_map.mp h
        exact List.mem_cons_self
      · exact List.mem_cons_of_mem code (ih h)
    · exact List.mem_cons_of_mem code (ih h)

/-! ## Listed documents -/

theorem of_mem_foldl_addDocument {added documents : List DocumentId} {id : DocumentId}
    (h : id ∈ added.foldl FixReport.addDocument documents) : id ∈ added ∨ id ∈ documents := by
  induction added generalizing documents with
  | nil => exact .inr h
  | cons first added ih =>
    rcases ih h with h | h
    · exact .inl (List.mem_cons_of_mem first h)
    · obtain rfl | h | ⟨old, hold, -, rfl⟩ := upsert_cases h
      · exact .inl List.mem_cons_self
      · exact .inr h
      · exact .inr hold

variable {r : FixReport} {codes : List String}

/-- A document that a run lists was listed before, or it is one of the snapshot and has an edit that is
applied. -/
theorem appliedTo_of_listed (hcodes : ∀ code ∈ codes, code ∈ (ofConfig config).fixableCodes)
    (hs : r.snapshot.Sound) (h : document ∈ (codes.foldl (ofConfig config).fixCode r).documents) :
    document ∈ r.documents ∨ (∃ d, r.snapshot.find? document = some d) ∧
      (ofConfig config).appliedTo document r.snapshot codes ≠ [] := by
  induction codes generalizing r with
  | nil => exact .inl h
  | cons code codes ih =>
    rw [List.forall_mem_cons] at hcodes
    have hsound := sound_fixCode hcodes.1 hs
    have hlater := ih hcodes.2 hsound h
    cases hbatch : (ofConfig config).fixAll r.snapshot (Workspace.ofSnapshot r.snapshot).host code with
    | error cause =>
      rw [fixCode_of_error hbatch] at hlater
      rw [appliedTo, hbatch]
      exact hlater
    | ok b =>
      rw [fixCode_of_ok hbatch, FixReport.snapshot_accept (snapshot_of_fixed_eq_zero hbatch)] at hlater
      rw [appliedTo, hbatch]
      dsimp only
      rcases hlater with hlisted | ⟨⟨d, hd⟩, happlied⟩
      · rw [FixReport.accept] at hlisted
        split at hlisted
        · exact .inl hlisted
        · rcases of_mem_foldl_addDocument hlisted with hnamed | hlisted
          · obtain ⟨hfound, hedits⟩ := editsOf_of_named hcodes.1 hs hbatch
              ⟨document, hnamed, DocumentId.same_iff.mpr rfl⟩
            refine .inr ⟨hfound, List.append_ne_nil_of_left_ne_nil ?_ _⟩
            exact mt List.map_eq_nil_iff.mp hedits
          · exact .inl hlisted
      · exact .inr ⟨(fixAll_kept hbatch).exists_find? hd,
          List.append_ne_nil_of_right_ne_nil _ happlied⟩

/-! ## Names and edits of a run -/

theorem countP_map_code (code other : String) (edits : List Edit) :
    (edits.map (AppliedEdit.mk code)).countP (·.code ≠ other) =
      if code = other then 0 else edits.length := by
  rw [List.countP_map]
  split
  · rename_i heq
    simp [heq]
  · rename_i hne
    simp [hne]

/-- A run over different codes rewrites a document batch by batch. Every edit that formats adds names,
and when no other edits are applied than those for public types, they make the new tree of the old one. -/
theorem rewrites_run (hcodes : ∀ code ∈ codes, code ∈ (ofConfig config).fixableCodes)
    (hdifferent : codes.Nodup) (hs : r.snapshot.Sound) (hd : r.snapshot.find? document = some d) :
    ∃ root, (codes.foldl (ofConfig config).fixCode r).snapshot.find? document =
        some { d with root := root } ∧
      nameBytes d.root.tokens + ((ofConfig config).appliedTo document r.snapshot codes).countP
        (·.code ≠ Rule.SupportNamespace.descriptor.code) ≤ nameBytes root.tokens ∧
      ((∀ a ∈ (ofConfig config).appliedTo document r.snapshot codes,
          a.code = Rule.SupportNamespace.descriptor.code) →
        Rewrites Rule.SupportNamespace.descriptor.code d.root
          (((ofConfig config).appliedTo document r.snapshot codes).map AppliedEdit.edit) root) := by
  induction codes generalizing r d with
  | nil =>
    have hroot := hs.root d (Snapshot.mem_of_find? hd).1
    exact ⟨d.root, hd, Nat.le_refl _, fun _ => .refl _ document hroot⟩
  | cons code codes ih =>
    rw [List.forall_mem_cons] at hcodes
    rw [List.nodup_cons] at hdifferent
    have hsound := sound_fixCode hcodes.1 hs
    rw [List.foldl_cons, appliedTo]
    cases hbatch : (ofConfig config).fixAll r.snapshot (Workspace.ofSnapshot r.snapshot).host code with
    | error cause =>
      rw [fixCode_of_error hbatch] at hsound ⊢
      exact ih hcodes.2 hdifferent.2 hsound hd
    | ok b =>
      have hsnapshot : (r.accept code b).snapshot = b.snapshot :=
        FixReport.snapshot_accept (snapshot_of_fixed_eq_zero hbatch)
      obtain ⟨middle, hmiddle, hfirst⟩ := fixAll_rewrites hcodes.1 hs hbatch hd
      rw [fixCode_of_ok hbatch] at hsound ⊢
      rw [← hsnapshot] at hmiddle
      obtain ⟨root, hroot, hnames, hrest⟩ := ih hcodes.2 hdifferent.2 hsound hmiddle
      rw [hsnapshot] at hnames hrest
      dsimp only at hnames hrest ⊢
      refine ⟨root, hroot, ?_, fun hall => ?_⟩
      · have hbytes := hfirst.nameBytes_le
        rw [List.countP_append, countP_map_code]
        omega
      · rw [List.forall_mem_append, List.forall_mem_map] at hall
        rw [List.map_append, List.map_map]
        by_cases hsupport : code = Rule.SupportNamespace.descriptor.code
        · -- no later batch is for the code, so that none applies an edit
          have hnone : (ofConfig config).appliedTo document b.snapshot codes = [] := by
            rw [List.eq_nil_iff_forall_not_mem]
            intro a ha
            exact hdifferent.1 (hsupport.trans (hall.2 a ha).symm ▸ code_of_mem_appliedTo ha)
          rw [hnone] at hrest ⊢
          obtain rfl := (hrest nofun).eq_of_nil
          rw [← hsupport]
          simpa [Function.comp_def] using hfirst
        · -- the batch is for another code, and applies no edit
          have hnone : (ofConfig config).editsOf r.snapshot code document = [] := by
            rw [List.eq_nil_iff_forall_not_mem]
            exact fun e he => hsupport (hall.1 e he)
          rw [hnone] at hfirst ⊢
          obtain rfl := hfirst.eq_of_nil
          exact hrest hall.2

/-! ## Runs over all codes -/

/-- The edits that a run over all codes applies in a document. -/
def appliedIn (e : Engine) (s : Snapshot) (document : DocumentId) : List AppliedEdit :=
  e.appliedTo document s e.fixableCodes

theorem appliedIn_of_listed (hs : s.Sound)
    (h : document ∈ ((ofConfig config).fixEverything s).documents) :
    (∃ d, s.find? document = some d) ∧ (ofConfig config).appliedIn s document ≠ [] := by
  have hcodes : ∀ code ∈ (ofConfig config).fixableCodes, code ∈ (ofConfig config).fixableCodes :=
    fun _ hcode => hcode
  obtain hbefore | hlisted := appliedTo_of_listed (r := .start s) hcodes hs h
  · cases hbefore
  · exact hlisted

theorem rewrites_fixEverything (config : Config) (hs : s.Sound) (hd : s.find? document = some d) :
    ∃ root, ((ofConfig config).fixEverything s).snapshot.find? document =
        some { d with root := root } ∧
      nameBytes d.root.tokens + ((ofConfig config).appliedIn s document).countP
        (·.code ≠ Rule.SupportNamespace.descriptor.code) ≤ nameBytes root.tokens ∧
      ((∀ a ∈ (ofConfig config).appliedIn s document,
          a.code = Rule.SupportNamespace.descriptor.code) →
        Rewrites Rule.SupportNamespace.descriptor.code d.root
          (((ofConfig config).appliedIn s document).map AppliedEdit.edit) root) := by
  have hdifferent : (ofConfig config).fixableCodes.Nodup := nodup_eraseDups _
  have hcodes : ∀ code ∈ (ofConfig config).fixableCodes, code ∈ (ofConfig config).fixableCodes :=
    fun _ hcode => hcode
  exact rewrites_run (r := .start s) hcodes hdifferent hs hd

end Engine

end SharpLint
