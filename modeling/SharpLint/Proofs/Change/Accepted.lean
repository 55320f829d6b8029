import SharpLint.Proofs.Change.Disjoint
import SharpLint.Proofs.Change.KeepFirst

/-!
# Accepted edits

`applyEdits` first chooses the edits that it applies and then replaces their targets from the right
(`applyEdits_eq`). What is chosen are edits of the list, and all of them exactly when no two different
ones share text, whatever happens to edits that overlap (`all_accepted_iff`). A change set is applied
document by document, each with its own edits (`find?_of_apply`).
-/

namespace SharpLint

/-- The edits that are applied, from left to right. -/
def acceptedEdits (document : DocumentId) (root : Tree) (edits : List Edit) (policy : OverlapPolicy) :
    Except ApplyError (List Edit) := do
  let located ← locateEdits document (.root root) (distinctEdits edits)
  let accepted ← acceptEdits document policy [] (stableSort Located.order located)
  pure (accepted.map Located.edit)

section

variable {document : DocumentId} {root new : Tree} {edits accepted : List Edit}
  {policy : OverlapPolicy}

theorem acceptedEdits_eq_ok : acceptedEdits document root edits policy = .ok accepted ↔
    ∃ located kept, locateEdits document (.root root) (distinctEdits edits) = .ok located ∧
      acceptEdits document policy [] (stableSort Located.order located) = .ok kept ∧
      kept.map Located.edit = accepted := by
  constructor
  · intro h
    obtain ⟨located, hlocated, h⟩ := bind_eq_ok h
    obtain ⟨kept, hkept, h⟩ := bind_eq_ok h
    exact ⟨located, kept, hlocated, hkept, Except.ok.inj h⟩
  · rintro ⟨located, kept, hlocated, hkept, rfl⟩
    simp only [acceptedEdits, hlocated, hkept, bind, Except.bind, pure, Except.pure]

theorem applyEdits_eq (document : DocumentId) (root : Tree) (edits : List Edit)
    (policy : OverlapPolicy) : applyEdits document root edits policy =
      (acceptedEdits document root edits policy).bind fun accepted =>
        replaceTargets document root accepted.reverse := by
  unfold applyEdits acceptedEdits
  cases locateEdits document (.root root) (distinctEdits edits) with
  | error e => rfl
  | ok located =>
    simp only [bind, Except.bind]
    cases acceptEdits document policy [] (stableSort Located.order located) with
    | error e => rfl
    | ok kept => simp only [pure, Except.pure, List.map_reverse]

theorem applyEdits_eq_ok : applyEdits document root edits policy = .ok new ↔
    ∃ accepted, acceptedEdits document root edits policy = .ok accepted ∧
      replaceTargets document root accepted.reverse = .ok new := by
  rw [applyEdits_eq]
  cases acceptedEdits document root edits policy with
  | error e => simp [Except.bind]
  | ok accepted => simp [Except.bind]

/-- Edits that are apart are all accepted. -/
theorem acceptEdits_of_apart {kept located : List Located}
    (h : (kept ++ located).Pairwise Located.Apart) :
    acceptEdits document policy kept located = .ok (kept ++ located) := by
  induction located generalizing kept with
  | nil => rw [acceptEdits, List.append_nil]
  | cons l located ih =>
    have hfree : kept.find? (·.full.overlaps l.full) = none := by
      rw [List.find?_eq_none]
      intro k hk
      have hapart : k.Apart l := (List.pairwise_append.mp h).2.2 k hk l List.mem_cons_self
      rw [hapart]
      exact Bool.false_ne_true
    rw [acceptEdits, hfree]
    have happend : kept ++ l :: located = kept ++ [l] ++ located := by simp
    rw [happend] at h ⊢
    exact ih h

/-- What is accepted are edits of the list, at places that are apart. -/
theorem exists_kept (h : acceptedEdits document root edits policy = .ok accepted) :
    ∃ kept : List Located, kept.map Located.edit = accepted ∧
      (∀ l ∈ kept, l.edit ∈ edits ∧ l.Holds (.root root)) ∧ kept.Pairwise Located.Apart ∧
      kept.Pairwise Located.Precedes := by
  obtain ⟨located, kept, hlocated, hkept, haccepted⟩ := acceptedEdits_eq_ok.mp h
  obtain ⟨hmap, hall⟩ := locateEdits_ok hlocated
  obtain ⟨out, hout, hapart, hsub⟩ | ⟨-, first, second, herror⟩ :=
    @acceptEdits_cases document policy [] (stableSort Located.order located) .nil
  · obtain rfl := Except.ok.inj (hkept.symm.trans hout)
    refine ⟨kept, haccepted, fun l hl => ?_, hapart, (Located.pairwise_precedes located).sublist hsub⟩
    have hl : l ∈ located := (stableSort_perm Located.order located).mem_iff.mp (hsub.mem hl)
    exact ⟨(mem_distinctEdits edits _).mp (hmap ▸ List.mem_map_of_mem hl), hall l hl⟩
  · rw [hkept] at herror
    cases herror

theorem mem_of_mem_acceptedEdits (h : acceptedEdits document root edits policy = .ok accepted)
    {e : Edit} (he : e ∈ accepted) : e ∈ edits := by
  obtain ⟨kept, rfl, hkept, -⟩ := exists_kept h
  obtain ⟨l, hl, rfl⟩ := List.mem_map.mp he
  exact (hkept l hl).1

/-- All edits are accepted exactly when different ones share no text. -/
theorem all_accepted_iff (h : acceptedEdits document root edits policy = .ok accepted) :
    (∀ e ∈ edits, e ∈ accepted) ↔ Applicable (.root root) edits := by
  constructor
  · intro hall
    obtain ⟨kept, rfl, hkept, hapart, -⟩ := exists_kept h
    have hheld : ∀ e ∈ edits, ∃ l ∈ kept, l.edit = e := fun e he => List.mem_map.mp (hall e he)
    refine ⟨fun e he => ?_, fun e he f hf hne m n hm hn => ?_⟩
    · obtain ⟨l, hl, rfl⟩ := hheld e he
      obtain ⟨n, hn, -⟩ := (hkept l hl).2
      rw [hn]
      rfl
    · obtain ⟨k, hk, rfl⟩ := hheld e he
      obtain ⟨l, hl, rfl⟩ := hheld f hf
      obtain ⟨m', hm', hfirst⟩ := (hkept k hk).2
      obtain ⟨n', hn', hsecond⟩ := (hkept l hl).2
      obtain rfl := Option.some.inj (hm.symm.trans hm')
      obtain rfl := Option.some.inj (hn.symm.trans hn')
      rw [← hfirst, ← hsecond]
      have hpairs : kept.Pairwise fun a b => a ≠ b → a.Apart b :=
        hapart.imp fun {a b} h (_ : a ≠ b) => h
      exact hpairs.forall_of_forall_of_flip (fun _ _ h => absurd rfl h)
        (hapart.imp fun {a b} h (_ : b ≠ a) => h.symm) hk hl fun hkl => hne (congrArg _ hkl)
  · intro hfree e he
    obtain ⟨located, kept, hlocated, hkept, rfl⟩ := acceptedEdits_eq_ok.mp h
    have hperm := stableSort_perm Located.order located
    have hsorted : (stableSort Located.order located).Pairwise Located.Apart :=
      hperm.symm.pairwise (hfree.pairwise_apart hlocated) Located.Apart.symm
    rw [acceptEdits_of_apart (by simpa using hsorted)] at hkept
    obtain rfl := Except.ok.inj hkept
    rw [List.nil_append, (hperm.map Located.edit).mem_iff, (locateEdits_ok hlocated).1,
      mem_distinctEdits]
    exact he

end

/-! ## Change sets -/

namespace ChangeSet

variable {c : ChangeSet} {document other : DocumentId} {e : Edit}

theorem of_has_addAll {new : DocumentEdits} (h : (c.addAll new).Has document e) :
    c.Has document e ∨ new.document.same document = true ∧ e ∈ new.edits := by
  obtain ⟨entry, hentry, hsame, he⟩ := h
  obtain rfl | hentry | ⟨old, hold, heq, rfl⟩ := upsert_cases hentry
  · exact .inr ⟨hsame, he⟩
  · exact .inl ⟨entry, hentry, hsame, he⟩
  · rcases List.mem_append.mp he with he | he
    · exact .inl ⟨old, hold, hsame, he⟩
    · have hnew := DocumentId.same_iff.mp (DocumentId.order_eq_eq_iff.mp heq)
      exact .inr ⟨DocumentId.same_iff.mpr (hnew.trans (DocumentId.same_iff.mp hsame)), he⟩

/-- A merged set has no edit that neither of the two has. -/
theorem of_has_merge {new : ChangeSet} (h : (c.merge new).Has document e) :
    c.Has document e ∨ new.Has document e := by
  have hfold : ∀ (entries : List DocumentEdits) (c : ChangeSet),
      (entries.foldl addAll c).Has document e →
        c.Has document e ∨ ∃ entry ∈ entries, entry.document.same document = true ∧ e ∈ entry.edits := by
    intro entries
    induction entries with
    | nil => exact fun _ h => .inl h
    | cons first entries ih =>
      intro c h
      rcases ih _ h with h | ⟨entry, hentry, he⟩
      · rcases of_has_addAll h with h | he
        · exact .inl h
        · exact .inr ⟨first, List.mem_cons_self, he⟩
      · exact .inr ⟨entry, List.mem_cons_of_mem first hentry, he⟩
  exact hfold new.entries c h

/-- The entry of a document is found by any of its ids. -/
theorem find?_eq (c : ChangeSet) {entry : DocumentEdits} (hentry : entry ∈ c.entries)
    (hsame : entry.document.same document = true) :
    c.entries.find? (·.document.same document) = some entry :=
  c.sorted.find?_eq hentry hsame

/-- The edits of a document that are applied. -/
def acceptedFor (c : ChangeSet) (s : Snapshot) (policy : OverlapPolicy) (document : DocumentId) :
    List Edit :=
  let accepted? : Option (List Edit) := do
    let entry ← c.entries.find? (·.document.same document)
    let d ← s.find? entry.document
    (acceptedEdits entry.document d.root entry.edits policy).toOption
  accepted?.getD []

theorem acceptedFor_congr (c : ChangeSet) (s : Snapshot) (policy : OverlapPolicy)
    (h : document.same other = true) :
    c.acceptedFor s policy document = c.acceptedFor s policy other := by
  have hparts := DocumentId.same_iff.mp h
  simp only [acceptedFor, DocumentId.same, hparts]

end ChangeSet

namespace Snapshot

variable {s r : Snapshot} {policy : OverlapPolicy}

theorem find?_setRoot_self {id : DocumentId} {d : Document} (hd : s.find? id = some d) (root : Tree) :
    (s.setRoot id root).find? id = some { d with root := root } := by
  have hsame : d.id.same id = true := (mem_of_find? hd).2
  unfold find? at hd
  rw [find?, setRoot, List.find?_map]
  simp only [Function.comp_def, id_ite]
  rw [hd, Option.map_some, if_pos hsame]

/-- With entries for different documents, each document has the tree that its own edits make. -/
theorem find?_of_mem_applyEntries {entries : List DocumentEdits}
    (hapart : entries.Pairwise DocumentEdits.Apart) (h : s.applyEntries policy entries = .ok r)
    {entry : DocumentEdits} (hentry : entry ∈ entries) :
    ∃ d root, s.find? entry.document = some d ∧
      applyEdits entry.document d.root entry.edits policy = .ok root ∧
      r.find? entry.document = some { d with root := root } := by
  induction entries generalizing s with
  | nil => cases hentry
  | cons first entries ih =>
    obtain ⟨hfirst, hapart⟩ := List.pairwise_cons.mp hapart
    obtain ⟨d, root, hd, hroot, h⟩ := applyEntries_cons_iff.mp h
    rcases List.mem_cons.mp hentry with rfl | hentry
    · refine ⟨d, root, hd, hroot, ?_⟩
      rw [(frame_of_applyEntries h).2 _ fun other hother => (hfirst other hother).symm]
      exact find?_setRoot_self hd root
    · obtain ⟨d', root', hd', hroot', hr⟩ := ih hapart h hentry
      rw [find?_setRoot s root (hfirst entry hentry)] at hd'
      exact ⟨d', root', hd', hroot', hr⟩

end Snapshot

namespace ChangeSet

variable {c : ChangeSet} {s r : Snapshot} {policy : OverlapPolicy} {document : DocumentId}

/-- In a set that is applied, each entry has its accepted edits. -/
theorem acceptedFor_eq (h : s.apply c policy = .ok r) {entry : DocumentEdits}
    (hentry : entry ∈ c.entries) (hsame : entry.document.same document = true) :
    ∃ d root, s.find? entry.document = some d ∧
      acceptedEdits entry.document d.root entry.edits policy =
        .ok (c.acceptedFor s policy document) ∧
      replaceTargets entry.document d.root (c.acceptedFor s policy document).reverse = .ok root ∧
      r.find? entry.document = some { d with root := root } := by
  obtain ⟨d, root, hd, hroot, hr⟩ := Snapshot.find?_of_mem_applyEntries c.apart h hentry
  obtain ⟨accepted, haccepted, hroot⟩ := applyEdits_eq_ok.mp hroot
  have heq : c.acceptedFor s policy document = accepted := by
    rw [acceptedFor, c.find?_eq hentry hsame]
    simp [hd, haccepted, Except.toOption]
  rw [heq]
  exact ⟨d, root, hd, haccepted, hroot, hr⟩

end ChangeSet

end SharpLint
