import SharpLint.Proofs.Change.Disjoint
import SharpLint.Proofs.Engine.Hidden

/-!
# Fixes that stay in their document

The changes of a fix can be for many documents. Where a fix is made for one diagnostic, only the edits
of the fix's own document are applied, and the set of these has one entry at most
(`entries_restrictTo`). So the snapshot has another tree for that document, or is as it was
(`apply_restrictTo_iff`), whatever else the fix would change and whatever the snapshot has become:

    e.fixOne? s host d = some t  →  s.Kept [d.location.document] t          (fixOne?_confined)
    s.Kept [fix.document] (fix.apply s)

The built-in fixes are for the document of their diagnostic (`document_of_mem_fixesFor`).
-/

namespace SharpLint

/-! ## The edits of one document -/

namespace ChangeSet

variable {document : DocumentId}

theorem addAll_addAll_self (c : ChangeSet) (xs ys : List Edit) (hc : c.entries = []) :
    (c.addAll ⟨document, xs⟩).addAll ⟨document, ys⟩ = c.addAll ⟨document, xs ++ ys⟩ := by
  have hself : document.order document = .eq := Std.ReflCmp.compare_self
  simp only [addAll, hc, upsert, hself]

/-- Edits that are added one by one stand in one entry. -/
theorem foldl_add (c : ChangeSet) (hc : c.entries = []) (xs edits : List Edit) :
    edits.foldl (fun r e => r.add document e) (c.addAll ⟨document, xs⟩) =
      c.addAll ⟨document, xs ++ edits⟩ := by
  induction edits generalizing xs with
  | nil => rw [List.foldl_nil, List.append_nil]
  | cons e edits ih =>
    rw [List.foldl_cons, add, addAll_addAll_self c xs [e] hc, ih, List.append_assoc]
    rfl

/-- All edits of the document, in one entry, and no other. -/
theorem entries_restrictTo (c : ChangeSet) (document : DocumentId) :
    (c.restrictTo document).entries =
      if (c.editsFor document).isEmpty then [] else [⟨document, c.editsFor document⟩] := by
  unfold restrictTo
  cases c.editsFor document with
  | nil => rfl
  | cons e edits =>
    rw [List.foldl_cons]
    exact congrArg entries (foldl_add empty rfl [e] edits)

theorem isEmpty_restrictTo (c : ChangeSet) (document : DocumentId) :
    (c.restrictTo document).isEmpty = (c.editsFor document).isEmpty := by
  rw [isEmpty, entries_restrictTo]
  split
  · rename_i hnone
    exact hnone.symm
  · simp

end ChangeSet

namespace Snapshot

variable {s t : Snapshot} {c : ChangeSet} {document : DocumentId} {policy : OverlapPolicy}

/-- The edits of one document give that document another tree; without edits nothing is done. -/
theorem apply_restrictTo_iff : s.apply (c.restrictTo document) policy = .ok t ↔
    c.editsFor document = [] ∧ t = s ∨ c.editsFor document ≠ [] ∧ ∃ d root,
      s.find? document = some d ∧ applyEdits document d.root (c.editsFor document) policy = .ok root ∧
      t = s.setRoot document root := by
  rw [apply, ChangeSet.entries_restrictTo]
  by_cases hnone : c.editsFor document = []
  · rw [if_pos (List.isEmpty_iff.mpr hnone)]
    simp only [hnone, applyEntries, Except.ok.injEq, true_and, ne_eq, not_true_eq_false, false_and,
      or_false]
    exact eq_comm
  · rw [if_neg (mt List.isEmpty_iff.mp hnone), applyEntries_cons_iff]
    simp only [hnone, applyEntries, Except.ok.injEq, false_and, ne_eq, not_false_eq_true, true_and,
      false_or]
    exact exists₂_congr fun d root => and_congr_right fun _ => and_congr_right fun _ => eq_comm

theorem kept_apply_restrictTo (h : s.apply (c.restrictTo document) policy = .ok t) :
    s.Kept [document] t := by
  rcases apply_restrictTo_iff.mp h with ⟨-, rfl⟩ | ⟨-, d, root, -, -, rfl⟩
  · exact kept_refl _ t
  · exact kept_setRoot s root (List.mem_singleton_self document)

end Snapshot

/-! ## A fix that is applied -/

namespace Fix

variable {fix : Fix} {s : Snapshot}

theorem apply_of_error {cause : FixError} (h : fix.changes s = .error cause) : fix.apply s = s := by
  rw [apply, h]

theorem apply_of_ok {c : ChangeSet} (h : fix.changes s = .ok c) : fix.apply s =
    (s.apply (c.restrictTo fix.document) .reject).toOption.getD s := by
  rw [apply, h]
  dsimp only
  cases s.apply (c.restrictTo fix.document) .reject with
  | ok t => rfl
  | error cause => rfl

theorem kept_apply (fix : Fix) (s : Snapshot) : s.Kept [fix.document] (fix.apply s) := by
  cases hchanges : fix.changes s with
  | error cause =>
    rw [apply_of_error hchanges]
    exact Snapshot.kept_refl _ s
  | ok c =>
    rw [apply_of_ok hchanges]
    cases happly : s.apply (c.restrictTo fix.document) .reject with
    | error cause => exact Snapshot.kept_refl _ s
    | ok t => exact Snapshot.kept_apply_restrictTo happly

end Fix

namespace Engine

variable {e : Engine} {s t : Snapshot} {host : Host} {d : Diagnostic}

/-- What is done for one diagnostic is that the first fix edits its document. -/
theorem fixOne?_eq_some (h : e.fixOne? s host d = some t) : ∃ fix c,
    (e.fixesFor s host d).head? = some fix ∧ fix.changes s = .ok c ∧
      c.editsFor fix.document ≠ [] ∧
      s.apply (c.restrictTo fix.document) e.config.engine.overlapPolicy = .ok t := by
  unfold fixOne? at h
  split at h
  · cases h
  rename_i fix fixes hfixes
  split at h
  · cases h
  rename_i c hchanges
  dsimp only at h
  split at h
  · cases h
  rename_i hedits
  rw [ChangeSet.isEmpty_restrictTo, List.isEmpty_iff] at hedits
  refine ⟨fix, c, by rw [hfixes]; rfl, hchanges, hedits, ?_⟩
  cases happly : s.apply (c.restrictTo fix.document) e.config.engine.overlapPolicy with
  | error cause => rw [happly] at h; cases h
  | ok t' =>
    rw [happly] at h
    exact congrArg Except.ok (Option.some.inj h)

end Engine

/-! ## The built-in fixes -/

namespace Repair

variable {s : Snapshot} {host : Host} {d : Diagnostic} {fix : Fix}

theorem FormatCall.document_of_propose? {module : String}
    (h : FormatCall.propose? module s host d = some fix) : fix.document = d.location.document := by
  simp only [FormatCall.propose?, Option.bind_eq_bind, Option.bind_eq_some_iff] at h
  obtain ⟨node, -, bindings, -, h⟩ := h
  split at h
  all_goals
    simp only [Option.pure_def, Option.bind_eq_some_iff, Option.some.injEq] at h
    obtain ⟨choice, -, type, -, kind, -, rfl⟩ := h
    rfl

theorem Visibility.document_of_propose? (h : Visibility.propose? s host d = some fix) :
    fix.document = d.location.document := by
  simp only [Visibility.propose?, Option.bind_eq_bind, Option.bind_eq_some_iff, Option.pure_def,
    Option.some.injEq] at h
  obtain ⟨reported, -, node, -, name, -, bindings, -, symbol, -, rfl⟩ := h
  rfl

end Repair

namespace Engine

variable {e : Engine} {s t : Snapshot} {host : Host} {d : Diagnostic}

/-- The built-in fixes are for the document of their diagnostic. -/
theorem document_of_mem_fixesFor {config : Config} {fix : Fix}
    (h : fix ∈ (ofConfig config).fixesFor s host d) : fix.document = d.location.document := by
  obtain ⟨p, hp, hfix⟩ := List.mem_flatMap.mp h
  have hproviders : p ∈ [Repair.FormatCall.provider config.formatModule, Repair.Visibility.provider] :=
    (List.mem_filter.mp hp).1
  rw [List.mem_cons, List.mem_singleton] at hproviders
  rcases hproviders with rfl | rfl
  · exact Repair.FormatCall.document_of_propose? (Option.mem_toList.mp hfix)
  · exact Repair.Visibility.document_of_propose? (Option.mem_toList.mp hfix)

/-! ## One diagnostic -/

/-- Where the first fix of a diagnostic is for the diagnostic's document, what is done for the
diagnostic keeps the ids of all documents and the trees of all others. Any fix that is applied to any
snapshot keeps the documents that are not its own; if its changes cannot be computed, or the edits of
its own document cannot be applied, then the snapshot is as it was. -/
theorem fixOne?_confined (e : Engine) (s : Snapshot) (host : Host) (d : Diagnostic) :
    ((∀ fix, (e.fixesFor s host d).head? = some fix →
        fix.document.same d.location.document = true) →
      ∀ t, e.fixOne? s host d = some t → s.Kept [d.location.document] t) ∧
      ∀ (fix : Fix) (s : Snapshot), s.Kept [fix.document] (fix.apply s) ∧
        (∀ cause, fix.changes s = .error cause → fix.apply s = s) ∧
        ∀ c, fix.changes s = .ok c →
          (∀ cause, s.apply (c.restrictTo fix.document) .reject = .error cause → fix.apply s = s) ∧
          ∀ t, s.apply (c.restrictTo fix.document) .reject = .ok t → fix.apply s = t := by
  refine ⟨fun hown t ht => ?_, fun fix s =>
    ⟨fix.kept_apply s, fun _ => Fix.apply_of_error, fun c hc => ?_⟩⟩
  · obtain ⟨fix, c, hfix, -, -, happly⟩ := fixOne?_eq_some ht
    refine (Snapshot.kept_apply_restrictTo happly).mono fun id hid => ?_
    obtain rfl := List.mem_singleton.mp hid
    refine ⟨_, List.mem_singleton_self _, ?_⟩
    rw [DocumentId.same_comm]
    exact hown fix hfix
  · refine ⟨fun cause happly => ?_, fun t happly => ?_⟩
    · rw [Fix.apply_of_ok hc, happly]
      rfl
    · rw [Fix.apply_of_ok hc, happly]
      rfl

/-- The type has a part in each document, and only the part in the document of the diagnostic is made
internal. -/
theorem fixOne?_confined_partialSources :
    ∃ w d fix c t, Workspace.ofSources partialSources = .ok w ∧
      d ∈ ((ofConfig .default).analyze w.snapshot w.host).diagnostics ∧
      (∀ fix, ((ofConfig .default).fixesFor w.snapshot w.host d).head? = some fix →
        fix.document.same d.location.document = true) ∧
      ((ofConfig .default).fixesFor w.snapshot w.host d).head? = some fix ∧
      fix.changes w.snapshot = .ok c ∧ c.documents = [⟨"A.cs"⟩, ⟨"B.cs"⟩] ∧
      (ofConfig .default).fixOne? w.snapshot w.host d = some t ∧ t ≠ w.snapshot ∧
      w.snapshot.Kept [d.location.document] t := by
  have hrun : (Workspace.ofSources partialSources).toOption.any (fun w =>
      ((ofConfig .default).analyze w.snapshot w.host).diagnostics.any fun d =>
        ((ofConfig .default).fixesFor w.snapshot w.host d).head?.any fun fix =>
          (fix.changes w.snapshot).toOption.any fun c =>
            decide (c.documents = [⟨"A.cs"⟩, ⟨"B.cs"⟩]) &&
              ((ofConfig .default).fixOne? w.snapshot w.host d).any fun t =>
                decide (t ≠ w.snapshot)) = true := by
    decide +kernel
  cases hw : Workspace.ofSources partialSources with
  | error e => rw [hw] at hrun; cases hrun
  | ok w =>
    rw [hw] at hrun
    obtain ⟨d, hd, hrun⟩ := List.any_eq_true.mp hrun
    obtain ⟨fix, hfix, hrun⟩ := (Option.any_eq_true _ _).mp hrun
    have hown : ∀ fix, ((ofConfig .default).fixesFor w.snapshot w.host d).head? = some fix →
        fix.document.same d.location.document = true := by
      intro fix hfix
      rw [document_of_mem_fixesFor (List.mem_of_mem_head? hfix)]
      exact DocumentId.same_iff.mpr rfl
    cases hchanges : fix.changes w.snapshot with
    | error cause => rw [hchanges] at hrun; cases hrun
    | ok c =>
      rw [hchanges] at hrun
      obtain ⟨hdocuments, hrun⟩ := Bool.and_eq_true_iff.mp hrun
      obtain ⟨t, ht, hchanged⟩ := (Option.any_eq_true _ _).mp hrun
      exact ⟨w, d, fix, c, t, rfl, hd, hown, hfix, hchanges, of_decide_eq_true hdocuments, ht,
        of_decide_eq_true hchanged, (fixOne?_confined _ _ _ d).1 hown t ht⟩

end Engine

end SharpLint
