import SharpLint.Proofs.Engine.FixAll
import SharpLint.Proofs.Engine.Reparse
import SharpLint.Proofs.Repair.Internal

/-!
# After a batch no type is reported as public

Where every public type of a support namespace is reported, the batch for them leaves none
(`fixAll_hides`). Each diagnostic has a fix with an edit for the reported declaration itself, whatever
else the fix changes; merging loses no edit, and all edits make declarations internal.
-/

namespace SharpLint

open Repair.Visibility

/-! ## All documents of a change set -/

namespace Snapshot

variable {s : Snapshot} {start : String}

/-- A declaration of a document is the target of an edit. -/
def Covered (start : String) (entries : List DocumentEdits) (d : Document) : Prop :=
  ∀ m : Node, m.Inside d.root → Rule.SupportNamespace.isExposed start m = true →
    ∃ entry ∈ entries, entry.document.same d.id = true ∧ ∃ e ∈ entry.edits, Targets e m

variable {entry : DocumentEdits} {entries : List DocumentEdits} {d : Document}

/-- No other entry is for the document of the first one. -/
theorem eq_of_same (hsorted : SortedBy DocumentEdits.document (entry :: entries))
    {other : DocumentEdits} (hother : other ∈ entry :: entries)
    (hsame : other.document.same entry.document = true) : other = entry := by
  refine (List.mem_cons.mp hother).resolve_right fun hother => ?_
  have heq := DocumentId.order_eq_eq_iff.mpr
    (DocumentId.same_iff.mpr (DocumentId.same_iff.mp hsame).symm)
  rw [(List.pairwise_cons.mp hsorted).1 other hother] at heq
  cases heq

/-- What is reported in the document of the first entry is covered by that entry. -/
theorem Covered.of_same (h : Covered start (entry :: entries) d)
    (hsorted : SortedBy DocumentEdits.document (entry :: entries))
    (hid : d.id.same entry.document = true) {m : Node} (hm : m.Inside d.root)
    (hexposed : Rule.SupportNamespace.isExposed start m = true) :
    ∃ e ∈ entry.edits, Targets e m := by
  obtain ⟨other, hother, hsame, he⟩ := h m hm hexposed
  have hfirst : other = entry := eq_of_same hsorted hother (DocumentId.same_iff.mpr
    ((DocumentId.same_iff.mp hsame).trans (DocumentId.same_iff.mp hid)))
  rwa [hfirst] at he

/-- The other documents are covered by the other entries. -/
theorem Covered.of_ne (h : Covered start (entry :: entries) d)
    (hne : ¬ d.id.same entry.document = true) : Covered start entries d := by
  intro m hm hexposed
  obtain ⟨other, hother, hsame, he⟩ := h m hm hexposed
  rcases List.mem_cons.mp hother with rfl | hother
  · exact absurd (DocumentId.same_iff.mpr (DocumentId.same_iff.mp hsame).symm) hne
  · exact ⟨other, hother, hsame, he⟩

/-- Where all reported nodes have an edit, none is reported when all edits are applied. -/
theorem applyEntries_hides {policy : OverlapPolicy} {entries : List DocumentEdits}
    {updated : Snapshot} (hs : s.Sound) (hsorted : SortedBy DocumentEdits.document entries)
    (hlaid : ∀ entry ∈ entries, ∀ d, s.find? entry.document = some d → d.root.Laid)
    (hmeets : ∀ entry ∈ entries, entry.Meet MakesInternal s)
    (hcover : ∀ d ∈ s.documents, Covered start entries d)
    (h : s.applyEntries policy entries = .ok updated) :
    ∀ d ∈ updated.documents, ∀ m : Node, m.Inside d.root →
      Rule.SupportNamespace.isExposed start m = false := by
  induction entries generalizing s with
  | nil =>
    obtain rfl := Except.ok.inj h
    intro d hd m hm
    rw [Bool.eq_false_iff]
    intro hexposed
    obtain ⟨entry, hentry, -⟩ := hcover d hd m hm hexposed
    cases hentry
  | cons entry entries ih =>
    rw [List.forall_mem_cons] at hmeets hlaid
    obtain ⟨⟨d, hd, hedits⟩, hmeets⟩ := hmeets
    obtain ⟨hmem, hid⟩ := mem_of_find? hd
    have hdroot := hs.root d hmem
    rw [applyEntries, hd] at h
    obtain ⟨root, happly, h⟩ := bind_eq_ok h
    have hroot := sound_of_applyEdits hdroot (fun e he => (hedits e he).fits hdroot) happly
    have hhidden := applyEdits_hides hdroot (hlaid.1 d hd) hedits
      (fun m hm hexposed => (hcover d hmem).of_same hsorted hid hm hexposed) happly
    -- the documents of the entries still to come are as they were
    have hstay : ∀ other ∈ entries,
        (s.setRoot entry.document root).find? other.document = s.find? other.document :=
      fun other hother => find?_setRoot s root
        (DocumentId.same_eq_false_of_lt ((List.pairwise_cons.mp hsorted).1 other hother))
    refine ih (hs.setRoot entry.document hroot) (List.pairwise_cons.mp hsorted).2
      (fun other hother e he => ?_) (fun other hother => ?_) (fun e he => ?_) h
    · rw [hstay other hother] at he
      exact hlaid.2 other hother e he
    · obtain ⟨e, he, hall⟩ := hmeets other hother
      exact ⟨e, by rw [hstay other hother, he], hall⟩
    · obtain ⟨old, hold, rfl⟩ := List.mem_map.mp he
      split
      · exact fun m hm hexposed => absurd hexposed (Bool.eq_false_iff.mp (hhidden m hm))
      · rename_i hne
        exact (hcover old hold).of_ne hne

end Snapshot

/-! ## The batch -/

namespace Engine

variable {config : Config} {s : Snapshot} {host : Host}

/-- The provider of the batch. -/
theorem find?_provider (c : Config) :
    (ofConfig c).providers.find? (·.handles "NG1005") = some Repair.Visibility.provider := rfl

/-- Reported is a type in a support namespace. -/
theorem exists_check {d : Diagnostic} (hd : d ∈ ((ofConfig config).analyze s host).withCode "NG1005") :
    ∃ document b n f, n.Inside document.root ∧
      f ∈ Rule.SupportNamespace.check config.supportStart b n ∧ d.Reports s host document b f := by
  obtain ⟨document, b, r, find, n, f, hr, hcode, hn, hf, hreports⟩ := exists_finding_of_code hd
  obtain ⟨rfl, rfl⟩ := (hr.eq_of_reports hcode).2 (List.mem_singleton.mpr rfl)
  exact ⟨document, b, n, f, hn, hf, hreports⟩

/-- The merged changes of the fixes for public types. -/
structure Collected (config : Config) (s : Snapshot) (host : Host) (merged : ChangeSet) : Prop where
  fits : merged.Fits s
  /-- Nothing else is changed. -/
  makes : merged.Meets MakesInternal s
  /-- No edit of a proposed fix is lost. -/
  keeps : ∀ d ∈ ((ofConfig config).analyze s host).withCode "NG1005", ∀ fix,
    provider.propose s host d = [fix] → ∀ new, fix.changes s = .ok new →
      ∀ document e, new.Has document e → merged.Has document e

theorem exists_collected {b : BatchResult} (hs : s.Sound) (hhost : host.Knows s)
    (h : (ofConfig config).fixAll s host "NG1005" = .ok b) :
    ∃ merged, Collected config s host merged ∧
      s.apply merged config.engine.overlapPolicy = .ok b.snapshot := by
  obtain ⟨p, merged, hp, hmerged, happly, -⟩ := fixAll_eq_ok h
  obtain rfl := Option.some.inj ((find?_provider config).symm.trans hp)
  have hserves : ∀ d ∈ ((ofConfig config).analyze s host).withCode "NG1005",
      provider.Serves key s host d := by
    intro d hd
    obtain ⟨document, bindings, n, f, hn, hf, hreports⟩ := exists_check hd
    exact serves hs hhost hreports hn hf
  obtain ⟨fixes, hmap, -, hfixes⟩ := exists_fixes hserves
  rw [hmap, chooseFixes_map fun fix hfix => (hfixes fix hfix).1] at hmerged
  obtain ⟨c, hc, hfits⟩ :=
    exists_mergeChanges (fun fix hfix => (hfixes fix hfix).2) (ChangeSet.fits_empty s)
  obtain rfl := Except.ok.inj (hmerged.symm.trans hc)
  refine ⟨merged, ⟨hfits, mergeChanges_meets (fun fix hfix new hnew => ?_) ChangeSet.meets_empty
    hmerged, fun d hd fix hfix new hnew document e he => ?_⟩, happly⟩
  · -- the fix is the one of a diagnostic
    have hmem : [fix] ∈ fixes.map fun fix => [fix] := List.mem_map_of_mem hfix
    rw [← hmap] at hmem
    obtain ⟨d, hd, hpropose⟩ := List.mem_map.mp hmem
    obtain ⟨document, bindings, n, f, hn, hf, hreports⟩ := exists_check hd
    obtain ⟨title, declarations, hproposal, hin, -⟩ := exists_proposal hs hhost hreports hn hf
    rw [hproposal, List.singleton_inj] at hpropose
    rw [← hpropose] at hnew
    obtain rfl := Except.ok.inj hnew
    exact meets_changes hs hin
  · have hmem : [fix] ∈ fixes.map fun fix => [fix] := by
      rw [← hmap, ← hfix]
      exact List.mem_map_of_mem hd
    obtain ⟨fix', hfix', heq⟩ := List.mem_map.mp hmem
    obtain rfl := List.singleton_inj.mp heq
    exact mergeChanges_has hmerged (.inr ⟨fix', hfix', new, hnew, he⟩)

/-- A declaration with a diagnostic has an edit in the batch. -/
theorem exists_edit_of_reported {merged : ChangeSet} (hs : s.Sound) (hhost : host.Knows s)
    (hlists : host.Lists s) (hmerged : Collected config s host merged)
    {document : Document} (hdocument : document ∈ s.documents) {m : Node}
    (hm : m.Inside document.root)
    (hexposed : Rule.SupportNamespace.isExposed config.supportStart m = true)
    {d : Diagnostic} (hd : d ∈ ((ofConfig config).analyze s host).withCode "NG1005")
    (hplace : d.location.document = document.id) (hspan : d.location.span = m.span) :
    ∃ e, merged.Has document.id e ∧ Targets e m := by
  obtain ⟨document', bindings, n, f, hn, hf, hreports⟩ := exists_check hd
  have hsame : document' = document := by
    have hfind := hreports.find?_eq
    rw [← hreports.place, hplace, s.find?_eq hdocument (DocumentId.same_iff.mpr rfl)] at hfind
    exact (Option.some.inj hfind).symm
  obtain rfl := hsame
  -- the finding is about the node with this span, which is found from the root
  have hnm : n = m := by
    have hroot := hs.root document' hdocument
    have hcheck : ∃ f, f ∈ Rule.SupportNamespace.check config.supportStart bindings m := by
      rw [Rule.SupportNamespace.check, if_pos hexposed]
      exact ⟨_, List.mem_singleton_self _⟩
    obtain ⟨f', hf'⟩ := hcheck
    have hfn := (coveringNode_of_check hroot hn hf).2.2
    have hfm := (coveringNode_of_check hroot hm hf').2.2
    obtain ⟨-, hnode, -⟩ := check_cases hn hf
    rw [← hspan, hreports.span, hnode, hfn] at hfm
    exact hfm
  obtain rfl := hnm
  obtain ⟨title, declarations, hproposal, hin, hself⟩ := exists_proposal hs hhost hreports hn hf
  have hmem : ⟨document'.id, n.span, n.kind⟩ ∈ declarations := by
    obtain ⟨-, -, hkind, -⟩ := check_cases hn hf
    rcases hself with rfl | ⟨symbol, hsymbol, rfl⟩
    · exact List.mem_singleton_self _
    · exact hlists document' hdocument bindings hreports.bindings n hn hkind symbol hsymbol
  obtain ⟨e, he, htarget, hkind⟩ := has_changes hs hin hmem
  exact ⟨e, hmerged.keeps d hd _ hproposal _ rfl document'.id e he, htarget, hkind⟩

/-- Where every public type of a support namespace is reported, a batch that succeeds leaves none. -/
theorem fixAll_hides {sources : List (String × String)} {w : Workspace} {b : BatchResult}
    (hw : Workspace.ofSources sources = .ok w)
    (hreported : ∀ d ∈ w.snapshot.documents, ∀ n ∈ d.rootNode.descendants, ∀ bindings,
      Rule.SupportNamespace.check config.supportStart bindings n ≠ [] →
      ∃ diagnostic ∈ ((ofConfig config).analyze w.snapshot w.host).withCode "NG1005",
        diagnostic.location.document = d.id ∧ diagnostic.location.span = n.span)
    (hfix : (ofConfig config).fixAll w.snapshot w.host "NG1005" = .ok b) :
    ∀ d ∈ b.snapshot.documents, ∀ n ∈ d.rootNode.descendants, ∀ bindings,
      Rule.SupportNamespace.check config.supportStart bindings n = [] := by
  have hs := Workspace.sound_snapshot hw
  have hhost := Workspace.knows_snapshot hw
  have hlists : w.host.Lists w.snapshot :=
    (Workspace.ofSources_eq_ok hw).2 ▸ Workspace.lists_host _
  obtain ⟨merged, hmerged, happly⟩ := exists_collected hs hhost hfix
  have hlaid : ∀ entry ∈ merged.entries, ∀ d, w.snapshot.find? entry.document = some d →
      d.root.Laid :=
    fun _ _ d hd => Workspace.laid_snapshot hw d (Snapshot.mem_of_find? hd).1
  have hcover : ∀ d ∈ w.snapshot.documents,
      Snapshot.Covered config.supportStart merged.entries d := by
    intro d hd m hm hexposed
    obtain ⟨diagnostic, hmem, hplace, hspan⟩ := hreported d hd m
      (Node.mem_descendants_root.mpr hm) ⟨fun _ => none, fun _ => none, fun _ => none⟩ (by
        rw [Rule.SupportNamespace.check, if_pos hexposed]
        exact List.cons_ne_nil _ _)
    obtain ⟨e, ⟨entry, hentry, hsame, he⟩, htargets⟩ :=
      exists_edit_of_reported hs hhost hlists hmerged hd hm hexposed hmem hplace hspan
    exact ⟨entry, hentry, hsame, e, he, htargets⟩
  have hhidden := Snapshot.applyEntries_hides hs merged.sorted hlaid hmerged.makes hcover
    happly
  intro d hd n hn bindings
  rw [Rule.SupportNamespace.check, hhidden d hd n (.of_mem_descendants hn)]
  rfl

/-- Two parts of a type, a type inside one of them, and a type of its own. -/
def partialSources : List (String × String) :=
  [("A.cs", "namespace Lucene.Net.Support \x7b " ++
     "public partial class A \x7b public class B \x7b \x7d \x7d \x7d"),
   ("B.cs", "namespace Lucene.Net.Support.IO \x7b protected public enum E \x7b X \x7d \x7d\n" ++
     "namespace Lucene.Net.Support \x7b [Serializable] public partial class A \x7b \x7d \x7d")]

theorem fixAll_hides_partialSources :
    ∃ w b, Workspace.ofSources partialSources = .ok w ∧
      (∀ d ∈ w.snapshot.documents, ∀ n ∈ d.rootNode.descendants, ∀ bindings,
        Rule.SupportNamespace.check Config.default.supportStart bindings n ≠ [] →
        ∃ diagnostic ∈ ((ofConfig .default).analyze w.snapshot w.host).withCode "NG1005",
          diagnostic.location.document = d.id ∧ diagnostic.location.span = n.span) ∧
      (ofConfig .default).fixAll w.snapshot w.host "NG1005" = .ok b ∧ b.fixed = 3 ∧
      ∀ d ∈ b.snapshot.documents, ∀ n ∈ d.rootNode.descendants, ∀ bindings,
        Rule.SupportNamespace.check Config.default.supportStart bindings n = [] := by
  have hread : ((Workspace.ofSources partialSources).toOption.any fun w =>
      (w.snapshot.documents.all fun d => d.rootNode.descendants.all fun n =>
        !Rule.SupportNamespace.isExposed Config.default.supportStart n ||
          (((ofConfig .default).analyze w.snapshot w.host).withCode "NG1005").any fun r =>
            decide (r.location.document = d.id) && decide (r.location.span = n.span)) &&
      ((ofConfig .default).fixAll w.snapshot w.host "NG1005").toOption.any (·.fixed == 3)) =
        true := by
    decide +kernel
  cases hw : Workspace.ofSources partialSources with
  | error e => rw [hw] at hread; cases hread
  | ok w =>
    rw [hw] at hread
    obtain ⟨hall, hfixed⟩ := Bool.and_eq_true_iff.mp hread
    cases hfix : (ofConfig .default).fixAll w.snapshot w.host "NG1005" with
    | error e => rw [hfix] at hfixed; cases hfixed
    | ok b =>
      rw [hfix] at hfixed
      have hreported : ∀ d ∈ w.snapshot.documents, ∀ n ∈ d.rootNode.descendants, ∀ bindings,
          Rule.SupportNamespace.check Config.default.supportStart bindings n ≠ [] →
          ∃ diagnostic ∈ ((ofConfig .default).analyze w.snapshot w.host).withCode "NG1005",
            diagnostic.location.document = d.id ∧ diagnostic.location.span = n.span := by
        intro d hd n hn bindings hfires
        have hnode := List.all_eq_true.mp (List.all_eq_true.mp hall d hd) n hn
        rcases Bool.or_eq_true_iff.mp hnode with hhidden | hfound
        · rw [Rule.SupportNamespace.check, if_neg (by simpa using hhidden)] at hfires
          exact absurd rfl hfires
        · obtain ⟨r, hr, hplace⟩ := List.any_eq_true.mp hfound
          simp only [Bool.and_eq_true, decide_eq_true_eq] at hplace
          exact ⟨r, hr, hplace⟩
      exact ⟨w, b, rfl, hreported, hfix, beq_iff_eq.mp hfixed, fixAll_hides hw hreported hfix⟩

end Engine

end SharpLint
