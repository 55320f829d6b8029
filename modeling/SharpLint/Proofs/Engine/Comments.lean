import SharpLint.Proofs.Engine.Diagnostics
import SharpLint.Proofs.Repair.Comments

/-!
# Comments that a fix drops

Every fix that is proposed for a diagnostic can be made, and each of its edits replaces a node that is
found. The comments of that node are those of the new tree and those at the places that the
replacement drops, and no others (`fixesFor_keepsComments_iff`). There can be comments at these places
(`fixesFor_drops_comment`).
-/

namespace SharpLint

open SharpLint.Tree

/-! ## Edits -/

/-- What is dropped from the node that a fix for the code replaces. -/
def droppedBy (code : String) (n : Node) : List Trivia :=
  if code = Rule.Formatting.explicitDescriptor.code then Repair.FormatCall.droppedByCall n
  else if code = Rule.Formatting.implicitDescriptor.code then Repair.FormatCall.droppedByHole n
  else Repair.Visibility.droppedByInternal n

/-- The edit replaces a node that is found, and loses the comments that are dropped for the code. -/
def Edit.DropsFor (code : String) (root : Tree) (e : Edit) : Prop :=
  ∃ n, (Node.root root).findNode? e.target e.kind = some n ∧
    LosesOnly (droppedBy code n) n.tree e.replacement

namespace Repair

variable {s : Snapshot} {host : Host} {d : Diagnostic} {document : Document} {b : Bindings}
  {f : Finding} {n : Node}

namespace FormatCall

/-- An expression has no format clause. -/
theorem droppedByHole_of_isExpression (h : n.kind.isExpression = true) : droppedByHole n = [] := by
  have hkind : n.kind ≠ .interpolation := fun hkind => by
    rw [hkind] at h
    cases h
  rw [droppedByHole, Node.hole?, if_neg hkind]
  rfl

theorem code_of_check (hd : d.Reports s host document b f) (hf : f ∈ Rule.Formatting.check b n) :
    d.code = Rule.Formatting.explicitDescriptor.code ∨
      d.code = Rule.Formatting.implicitDescriptor.code := by
  rw [hd.code]
  rcases Rule.Formatting.descriptor_of_check hf with h | h
  · exact .inl (congrArg Descriptor.code h)
  · exact .inr (congrArg Descriptor.code h)

/-- What is chosen for a code loses what is dropped for the code. -/
theorem losesOnly_replacement {site : Site} {c : Choice} {code : String} {r : Tree}
    (hcode : code = Rule.Formatting.explicitDescriptor.code ∨
      code = Rule.Formatting.implicitDescriptor.code)
    (hn : c.target.tree.Sound) (hlaid : c.target.tree.Laid) (hshape : site.shape = c.shape)
    (hgoes : c.GoesWith code) (h : site.replacement? c.target = some r) :
    LosesOnly (droppedBy code c.target) c.target.tree r := by
  unfold Site.replacement? at h
  unfold Choice.GoesWith at hgoes
  rw [hshape] at h
  split at hgoes
  · rename_i hexplicit
    rw [hgoes] at h
    rw [droppedBy, if_pos hexplicit]
    exact losesOnly_qualifiedCall hn hlaid h
  · rename_i hexplicit
    rw [droppedBy, if_neg hexplicit, if_pos (hcode.resolve_left hexplicit)]
    rcases hgoes with hhole | ⟨hoperand, hexpression⟩
    · rw [hhole] at h
      exact losesOnly_qualifiedHole hn h
    · rw [hoperand] at h
      rw [droppedByHole_of_isExpression hexpression]
      exact losesOnly_wrap rfl h

/-- The fix for a finding can be made, and drops what is dropped for its code. -/
theorem exists_changes_dropsFor (module : String) (hs : s.Sound)
    (hlaid : ∀ document ∈ s.documents, document.root.Laid) (hd : d.Reports s host document b f)
    (hn : n.Inside document.root) (hf : f ∈ Rule.Formatting.check b n) {fix : Fix}
    (hfix : fix ∈ (provider module).propose s host d) :
    ∃ changes, fix.changes s = .ok changes ∧ changes.Meets (Edit.DropsFor d.code) s := by
  obtain ⟨title, site, c, hpropose, hdocument, hsite, hsited, hgoes⟩ :=
    exists_proposal module hs hd hn hf
  rw [hpropose] at hfix
  obtain rfl := List.mem_singleton.mp hfix
  have hfind : s.find? site.document = some document := hdocument ▸ hd.find?_eq
  obtain ⟨r, hr, hchanges, -⟩ := Site.exists_changes hfind hsited hsite
  have hinside : c.target.Inside document.root := Node.Inside.of_findNode? hsited.found
  refine ⟨_, hchanges, ChangeSet.meets_empty.add hfind ⟨c.target, hsited.found, ?_⟩⟩
  exact losesOnly_replacement (code_of_check hd hf) (hinside.sound (hs.root document hd.mem))
    (hinside.laid (hlaid document hd.mem)) hsite.shape hgoes hr

end FormatCall

/-- The fix for a finding can be made, and drops what is dropped for its code. -/
theorem Visibility.exists_changes_dropsFor {start : String} (hs : s.Sound)
    (hlaid : ∀ document ∈ s.documents, document.root.Laid) (hhost : host.Knows s)
    (hd : d.Reports s host document b f) (hn : n.Inside document.root)
    (hf : f ∈ Rule.SupportNamespace.check start b n) {fix : Fix}
    (hfix : fix ∈ provider.propose s host d) :
    ∃ changes, fix.changes s = .ok changes ∧ changes.Meets (Edit.DropsFor d.code) s := by
  obtain ⟨title, declarations, hpropose, hin, -⟩ := exists_proposal hs hhost hd hn hf
  rw [hpropose] at hfix
  obtain rfl := List.mem_singleton.mp hfix
  have hcode : d.code = Rule.SupportNamespace.descriptor.code := by
    rw [hd.code, Rule.SupportNamespace.descriptor_of_check hf]
  refine ⟨_, rfl, (meets_changes hs hin).imp fun document hdocument e he => ?_⟩
  obtain ⟨n, hn, -, hreplacement⟩ := he
  have hinside : n.Inside document.root := Node.Inside.of_findNode? hn
  have hdropped : droppedBy d.code n = droppedByInternal n := by
    rw [hcode, droppedBy, if_neg (by decide), if_neg (by decide)]
  refine ⟨n, hn, ?_⟩
  rw [hdropped]
  exact losesOnly_withInternal (hinside.laid (hlaid document hdocument)) hreplacement

end Repair

/-! ## Fixes -/

namespace Engine

variable {config : Config}

/-- A fix that is proposed comes from a provider that handles the code. -/
theorem exists_changes_of_mem_fixesFor {s : Snapshot} {host : Host} (hs : s.Sound)
    (hlaid : ∀ document ∈ s.documents, document.root.Laid) (hhost : host.Knows s) {d : Diagnostic}
    (hd : d ∈ ((ofConfig config).analyze s host).diagnostics) {fix : Fix}
    (hfix : fix ∈ (ofConfig config).fixesFor s host d) :
    ∃ changes, fix.changes s = .ok changes ∧ changes.Meets (Edit.DropsFor d.code) s := by
  obtain ⟨p, hp, hfix⟩ := List.mem_flatMap.mp hfix
  obtain ⟨hp, hhandles⟩ := List.mem_filter.mp hp
  have hmem : d ∈ ((ofConfig config).analyze s host).withCode d.code :=
    List.mem_filter.mpr ⟨hd, beq_self_eq_true _⟩
  obtain ⟨document, b, r, find, n, f, hr, hcode, hn, hf, hd⟩ := exists_finding_of_code hmem
  have hcodes : d.code ∈ p.codes := List.contains_iff_mem.mp hhandles
  have hproviders : p ∈ [Repair.FormatCall.provider config.formatModule, Repair.Visibility.provider] :=
    hp
  rw [List.mem_cons, List.mem_singleton] at hproviders
  rcases hproviders with rfl | rfl
  · obtain ⟨rfl, rfl⟩ := (hr.eq_of_reports hcode).1 hcodes
    exact Repair.FormatCall.exists_changes_dropsFor _ hs hlaid hd hn hf hfix
  · obtain ⟨rfl, rfl⟩ := (hr.eq_of_reports hcode).2 hcodes
    exact Repair.Visibility.exists_changes_dropsFor hs hlaid hhost hd hn hf hfix

/-- Every fix that is proposed can be made. An edit of it keeps all comments of the node that it
replaces exactly when there is none among the dropped trivia, and loses only these. -/
theorem fixesFor_keepsComments_iff {sources : List (String × String)} {w : Workspace}
    (hw : Workspace.ofSources sources = .ok w) {d : Diagnostic}
    (hd : d ∈ ((ofConfig config).analyze w.snapshot w.host).diagnostics) {fix : Fix}
    (hfix : fix ∈ (ofConfig config).fixesFor w.snapshot w.host d) :
    ∃ changes, fix.changes w.snapshot = .ok changes ∧
      ∀ entry ∈ changes.entries, ∃ document, w.snapshot.find? entry.document = some document ∧
        ∀ e ∈ entry.edits, ∃ n, document.rootNode.findNode? e.target e.kind = some n ∧
          LosesOnly (droppedBy d.code n) n.tree e.replacement ∧
          (KeepsComments n.tree e.replacement ↔
            ∀ c ∈ droppedBy d.code n, c.kind.isComment = false) := by
  obtain ⟨changes, hchanges, hmeets⟩ := exists_changes_of_mem_fixesFor
    (Workspace.sound_snapshot hw) (Workspace.laid_snapshot hw) (Workspace.knows_snapshot hw) hd hfix
  refine ⟨changes, hchanges, fun entry hentry => ?_⟩
  obtain ⟨document, hdocument, hedits⟩ := hmeets entry hentry
  refine ⟨document, hdocument, fun e he => ?_⟩
  obtain ⟨n, hn, hloses⟩ := hedits e he
  exact ⟨n, hn, hloses, hloses.keepsComments_iff⟩

/-- A comment behind a parenthesis with an argument, and one behind an operand. -/
def keptSource : String :=
  "class C \x7b string M(float x) \x7b return x.ToString(/* a */ \"R\") + x /* b */; \x7d \x7d"

theorem fixesFor_keepsComments_iff_keptSource :
    ∃ w d fix, Workspace.ofSources [("A.cs", keptSource)] = .ok w ∧
      d ∈ ((ofConfig .default).analyze w.snapshot w.host).diagnostics ∧ d.code = "NG1001" ∧
      fix ∈ (ofConfig .default).fixesFor w.snapshot w.host d ∧
      ∃ changes, fix.changes w.snapshot = .ok changes ∧
        ∀ entry ∈ changes.entries, ∃ document, w.snapshot.find? entry.document = some document ∧
          ∀ e ∈ entry.edits, ∃ n, document.rootNode.findNode? e.target e.kind = some n ∧
            LosesOnly (droppedBy d.code n) n.tree e.replacement ∧
            (KeepsComments n.tree e.replacement ↔
              ∀ c ∈ droppedBy d.code n, c.kind.isComment = false) := by
  have hread : ((Workspace.ofSources [("A.cs", keptSource)]).toOption.any fun w =>
      ((ofConfig .default).analyze w.snapshot w.host).diagnostics.any fun d =>
        decide (d.code = "NG1001") && !((ofConfig .default).fixesFor w.snapshot w.host d).isEmpty) =
          true := by
    decide +kernel
  cases hw : Workspace.ofSources [("A.cs", keptSource)] with
  | error e => rw [hw] at hread; cases hread
  | ok w =>
    rw [hw] at hread
    obtain ⟨d, hd, hfixes⟩ := List.any_eq_true.mp hread
    obtain ⟨hcode, hfixes⟩ := Bool.and_eq_true_iff.mp hfixes
    obtain ⟨fix, hfix⟩ := List.isEmpty_eq_false_iff_exists_mem.mp ((Bool.not_eq_true' _).mp hfixes)
    exact ⟨w, d, fix, rfl, hd, of_decide_eq_true hcode, hfix, fixesFor_keepsComments_iff hw hd hfix⟩

/-- A comment between the receiver and the dot. -/
def commentedSource : String :=
  "class C \x7b string M(float x) \x7b return x /* c */.ToString(); \x7d \x7d"

/-- The comment is not in the new call. -/
theorem fixesFor_drops_comment :
    ∃ w d fix changes, Workspace.ofSources [("A.cs", commentedSource)] = .ok w ∧
      d ∈ ((ofConfig .default).analyze w.snapshot w.host).diagnostics ∧ d.code = "NG1001" ∧
      fix ∈ (ofConfig .default).fixesFor w.snapshot w.host d ∧
      fix.changes w.snapshot = .ok changes ∧
      ∃ entry ∈ changes.entries, ∃ document, w.snapshot.find? entry.document = some document ∧
        ∃ e ∈ entry.edits, ∃ n, document.rootNode.findNode? e.target e.kind = some n ∧
          ¬ KeepsComments n.tree e.replacement := by
  have hrun : ((Workspace.ofSources [("A.cs", commentedSource)]).toOption.any fun w =>
      ((ofConfig .default).analyze w.snapshot w.host).diagnostics.any fun d =>
        decide (d.code = "NG1001") &&
        ((ofConfig .default).fixesFor w.snapshot w.host d).any fun fix =>
          (fix.changes w.snapshot).toOption.any fun changes => changes.entries.any fun entry =>
            (w.snapshot.find? entry.document).any fun document => entry.edits.any fun e =>
              (document.rootNode.findNode? e.target e.kind).any fun n =>
                decide (¬ KeepsComments n.tree e.replacement)) = true := by
    decide +kernel
  cases hw : Workspace.ofSources [("A.cs", commentedSource)] with
  | error e => rw [hw] at hrun; cases hrun
  | ok w =>
    rw [hw] at hrun
    obtain ⟨d, hd, hrun⟩ := List.any_eq_true.mp hrun
    obtain ⟨hcode, hrun⟩ := Bool.and_eq_true_iff.mp hrun
    obtain ⟨fix, hfix, hrun⟩ := List.any_eq_true.mp hrun
    cases hchanges : fix.changes w.snapshot with
    | error e => rw [hchanges] at hrun; cases hrun
    | ok changes =>
      rw [hchanges] at hrun
      obtain ⟨entry, hentry, hrun⟩ := List.any_eq_true.mp hrun
      obtain ⟨document, hdocument, hrun⟩ := (Option.any_eq_true _ _).mp hrun
      obtain ⟨e, he, hrun⟩ := List.any_eq_true.mp hrun
      obtain ⟨n, hn, hdrops⟩ := (Option.any_eq_true _ _).mp hrun
      exact ⟨w, d, fix, changes, rfl, hd, of_decide_eq_true hcode, hfix, hchanges, entry, hentry,
        document, hdocument, e, he, n, hn, of_decide_eq_true hdrops⟩

end Engine

end SharpLint
