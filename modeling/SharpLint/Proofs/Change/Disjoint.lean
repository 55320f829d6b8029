import SharpLint.Proofs.Change.Set

/-!
# Sets of changes for different documents

The entries of a change set are applied one after the other, and an entry reads and writes one
document. So entries for different documents can be applied in any order (`applyEntries_perm`), and two
sets that have no document in common can be applied as one, in either order:

    s.apply (c.merge d) policy = .ok r ↔
      ∃ mid, s.apply c policy = .ok mid ∧ mid.apply d policy = .ok r        (apply_merge_of_disjoint)

No order of the documents is wrong and no failure is lost: a set that is refused is refused wherever
its entries stand among those of the other.
-/

namespace SharpLint

/-- The entries are for different documents. -/
def DocumentEdits.Apart (a b : DocumentEdits) : Prop := a.document.same b.document = false

instance (a b : DocumentEdits) : Decidable (a.Apart b) :=
  inferInstanceAs (Decidable (a.document.same b.document = false))

theorem DocumentEdits.Apart.symm {a b : DocumentEdits} (h : a.Apart b) : b.Apart a := by
  rw [DocumentEdits.Apart, DocumentId.same_comm]
  exact h

namespace ChangeSet

/-- The two sets have no document in common. -/
def Disjoint (c d : ChangeSet) : Prop := ∀ a ∈ c.entries, ∀ b ∈ d.entries, a.Apart b

variable {c d : ChangeSet}

/-- A set has one entry for each of its documents. -/
theorem apart (c : ChangeSet) : c.entries.Pairwise DocumentEdits.Apart :=
  List.Pairwise.imp DocumentId.same_eq_false_of_lt c.sorted

/-! ## The entries of a merged set -/

/-- Entries for documents that the set does not have are put into it. -/
theorem foldl_addAll_perm {entries : List DocumentEdits} (hentries : entries.Pairwise DocumentEdits.Apart)
    (h : ∀ a ∈ c.entries, ∀ b ∈ entries, a.Apart b) :
    (entries.foldl addAll c).entries.Perm (c.entries ++ entries) := by
  have hentriesOf : (entries.foldl addAll c).entries = entries.foldl (fun xs new =>
      upsert DocumentEdits.document new (fun old => { old with edits := old.edits ++ new.edits }) xs)
        c.entries :=
    (List.foldl_hom ChangeSet.entries fun _ _ => rfl).symm
  rw [hentriesOf]
  exact foldl_upsert_perm hentries h

theorem merge_perm (h : c.Disjoint d) : (c.merge d).entries.Perm (c.entries ++ d.entries) :=
  foldl_addAll_perm d.apart h

theorem documents_merge_perm (h : c.Disjoint d) :
    (c.merge d).documents.Perm (c.documents ++ d.documents) := by
  unfold documents
  rw [← List.map_append]
  exact (merge_perm h).map DocumentEdits.document

end ChangeSet

namespace Snapshot

open ChangeSet

variable {policy : OverlapPolicy} {s r : Snapshot}

/-! ## One entry after the other -/

theorem ids_setRoot (s : Snapshot) (id : DocumentId) (root : Tree) :
    (s.setRoot id root).documents.map Document.id = s.documents.map Document.id := by
  rw [setRoot, List.map_map]
  exact List.map_congr_left fun d _ => id_ite d _ root

/-- Which documents there are is a matter of ids. -/
theorem find?_isSome (s : Snapshot) (id : DocumentId) :
    (s.find? id).isSome = (s.documents.map Document.id).any (·.same id) := by
  rw [find?, List.isSome_find?, List.any_map]
  rfl

theorem setRoot_comm (s : Snapshot) {a b : DocumentId} (hab : a.same b = false) (root other : Tree) :
    (s.setRoot a root).setRoot b other = (s.setRoot b other).setRoot a root := by
  refine eq_of_documents ?_
  simp only [setRoot, List.map_map]
  refine List.map_congr_left fun d _ => ?_
  simp only [Function.comp_apply, id_ite]
  by_cases ha : d.id.same a = true
  · have hb : d.id.same b = false := by
      rw [DocumentId.same, DocumentId.same_iff.mp ha]
      exact hab
    simp only [ha, hb, if_true, if_false, Bool.false_eq_true]
  · simp only [ha, if_false, Bool.false_eq_true]

theorem applyEntries_cons_iff {entry : DocumentEdits} {entries : List DocumentEdits} :
    s.applyEntries policy (entry :: entries) = .ok r ↔ ∃ d root, s.find? entry.document = some d ∧
      applyEdits entry.document d.root entry.edits policy = .ok root ∧
      (s.setRoot entry.document root).applyEntries policy entries = .ok r := by
  constructor
  · intro h
    rw [applyEntries] at h
    split at h
    · cases h
    · rename_i d hd
      obtain ⟨root, hroot, h⟩ := bind_eq_ok h
      exact ⟨d, root, hd, hroot, h⟩
  · rintro ⟨d, root, hd, hroot, h⟩
    simpa only [applyEntries, hd, hroot, bind, Except.bind] using h

theorem applyEntries_append_iff {xs ys : List DocumentEdits} :
    s.applyEntries policy (xs ++ ys) = .ok r ↔
      ∃ mid, s.applyEntries policy xs = .ok mid ∧ mid.applyEntries policy ys = .ok r := by
  induction xs generalizing s with
  | nil => simp [applyEntries]
  | cons x xs ih =>
    rw [List.cons_append, applyEntries_cons_iff]
    constructor
    · rintro ⟨d, root, hd, hroot, h⟩
      obtain ⟨mid, hmid, h⟩ := ih.mp h
      exact ⟨mid, applyEntries_cons_iff.mpr ⟨d, root, hd, hroot, hmid⟩, h⟩
    · rintro ⟨mid, hmid, h⟩
      obtain ⟨d, root, hd, hroot, hmid⟩ := applyEntries_cons_iff.mp hmid
      exact ⟨d, root, hd, hroot, ih.mpr ⟨mid, hmid, h⟩⟩

/-- Two entries for different documents do not read what the other writes. -/
theorem applyEntries_swap {a b : DocumentEdits} (hab : a.Apart b) {entries : List DocumentEdits}
    (h : s.applyEntries policy (a :: b :: entries) = .ok r) :
    s.applyEntries policy (b :: a :: entries) = .ok r := by
  obtain ⟨d, root, hd, hroot, h⟩ := applyEntries_cons_iff.mp h
  obtain ⟨d', root', hd', hroot', h⟩ := applyEntries_cons_iff.mp h
  rw [find?_setRoot s root hab] at hd'
  rw [setRoot_comm s hab] at h
  refine applyEntries_cons_iff.mpr ⟨d', root', hd', hroot', applyEntries_cons_iff.mpr ?_⟩
  exact ⟨d, root, by rw [find?_setRoot s root' hab.symm, hd], hroot, h⟩

/-- Entries for different documents are applied in any order. -/
theorem applyEntries_perm {xs ys : List DocumentEdits} (h : xs.Perm ys)
    (hxs : xs.Pairwise DocumentEdits.Apart) :
    s.applyEntries policy xs = .ok r ↔ s.applyEntries policy ys = .ok r := by
  induction h generalizing s with
  | nil => rfl
  | cons x _ ih =>
    simp only [applyEntries_cons_iff, ih (List.pairwise_cons.mp hxs).2]
  | swap x y xs =>
    have hyx : y.Apart x := (List.pairwise_cons.mp hxs).1 x List.mem_cons_self
    exact ⟨applyEntries_swap hyx, applyEntries_swap hyx.symm⟩
  | trans hxy _ ih ih' =>
    exact (ih hxs).trans (ih' (hxy.pairwise hxs DocumentEdits.Apart.symm))

/-! ## What is left alone -/

/-- The documents stay, those without an entry with their trees. -/
theorem frame_of_applyEntries {entries : List DocumentEdits}
    (h : s.applyEntries policy entries = .ok r) :
    r.documents.map Document.id = s.documents.map Document.id ∧
      ∀ id, (∀ entry ∈ entries, entry.document.same id = false) → r.find? id = s.find? id := by
  induction entries generalizing s with
  | nil =>
    cases h
    exact ⟨rfl, fun _ _ => rfl⟩
  | cons entry entries ih =>
    obtain ⟨d, root, -, -, h⟩ := applyEntries_cons_iff.mp h
    obtain ⟨hids, hfind⟩ := ih h
    refine ⟨hids.trans (ids_setRoot s entry.document root), fun id hid => ?_⟩
    obtain ⟨hentry, hentries⟩ := List.forall_mem_cons.mp hid
    rw [hfind id hentries, find?_setRoot s root hentry]

/-- A document with an entry has to be there. -/
theorem find?_of_applyEntries {entries : List DocumentEdits}
    (h : s.applyEntries policy entries = .ok r) {entry : DocumentEdits} (hentry : entry ∈ entries) :
    (s.find? entry.document).isSome = true := by
  induction entries generalizing s with
  | nil => cases hentry
  | cons first entries ih =>
    obtain ⟨d, root, hd, -, h⟩ := applyEntries_cons_iff.mp h
    rcases List.mem_cons.mp hentry with rfl | hentry
    · rw [hd]
      rfl
    · have hlater := ih h hentry
      rwa [find?_isSome, ids_setRoot, ← find?_isSome] at hlater

/-! ## Two sets as one -/

variable {c d : ChangeSet}

theorem apply_merge_iff (h : c.Disjoint d) :
    s.apply (c.merge d) policy = .ok r ↔
      ∃ mid, s.apply c policy = .ok mid ∧ mid.apply d policy = .ok r := by
  unfold apply
  rw [applyEntries_perm (merge_perm h) (c.merge d).apart, applyEntries_append_iff]

theorem apply_comm (h : c.Disjoint d) :
    (∃ mid, s.apply c policy = .ok mid ∧ mid.apply d policy = .ok r) ↔
      ∃ mid, s.apply d policy = .ok mid ∧ mid.apply c policy = .ok r := by
  unfold apply
  rw [← applyEntries_append_iff, ← applyEntries_append_iff]
  refine applyEntries_perm List.perm_append_comm ?_
  exact List.pairwise_append.mpr ⟨c.apart, d.apart, h⟩

theorem exists_error_of_unknown (s : Snapshot) (policy : OverlapPolicy) (c : ChangeSet)
    (h : ∃ id ∈ c.documents, s.find? id = none) : ∃ e, s.apply c policy = .error e := by
  obtain ⟨id, hid, hnone⟩ := h
  obtain ⟨entry, hentry, rfl⟩ := List.mem_map.mp hid
  cases hr : s.apply c policy with
  | error e => exact ⟨e, rfl⟩
  | ok r =>
    have hsome := find?_of_applyEntries hr hentry
    rw [hnone] at hsome
    cases hsome

/-- Sets without a common document are applied together, or one after the other in either order, with
the same outcome. The documents that neither has are as they were, and a document that is not there is
an error. -/
theorem apply_merge_of_disjoint (s : Snapshot) (policy : OverlapPolicy) (h : c.Disjoint d) :
    (c.merge d).documents.Perm (c.documents ++ d.documents) ∧
    (∀ r, s.apply (c.merge d) policy = .ok r ↔
      ∃ mid, s.apply c policy = .ok mid ∧ mid.apply d policy = .ok r) ∧
    (∀ r, s.apply (c.merge d) policy = .ok r ↔
      ∃ mid, s.apply d policy = .ok mid ∧ mid.apply c policy = .ok r) ∧
    (∀ r, s.apply (c.merge d) policy = .ok r →
      r.documents.map Document.id = s.documents.map Document.id ∧
      ∀ id, (∀ touched ∈ c.documents ++ d.documents, touched.same id = false) →
        r.find? id = s.find? id) ∧
    ∀ x : ChangeSet, (∃ id ∈ x.documents, s.find? id = none) → ∃ e, s.apply x policy = .error e := by
  refine ⟨documents_merge_perm h, fun r => apply_merge_iff h,
    fun r => (apply_merge_iff h).trans (apply_comm h), fun r hr => ?_,
    exists_error_of_unknown s policy⟩
  obtain ⟨hids, hfind⟩ := frame_of_applyEntries hr
  refine ⟨hids, fun id hid => hfind id fun entry hentry => ?_⟩
  exact hid _ ((documents_merge_perm h).mem_iff.mp (List.mem_map_of_mem hentry))

/-- Three documents with the same text. -/
def sampleSums : Snapshot :=
  ⟨[⟨⟨"A.cs"⟩, sampleSum⟩, ⟨⟨"B.cs"⟩, sampleSum⟩, ⟨⟨"C.cs"⟩, sampleSum⟩], by decide +kernel⟩

theorem apply_merge_of_disjoint_sampleSums :
    let c := ChangeSet.empty.addAll ⟨⟨"A.cs"⟩, sampleEdits⟩
    let d := ChangeSet.single ⟨"B.cs"⟩ ⟨⟨0, 1⟩, .identifierName, sampleName "other" [.space]⟩
    c.Disjoint d ∧
      ∃ mid r, sampleSums.apply d .reject = .ok mid ∧ mid.apply c .reject = .ok r ∧
        sampleSums.apply (c.merge d) .reject = .ok r ∧
        r.documents.map Document.text = ["left + right;", "other + b;", "a + b;"] := by
  intro c d
  have hdisjoint : c.Disjoint d := by
    rintro _ (_ | ⟨_, ⟨⟩⟩) _ (_ | ⟨_, ⟨⟩⟩)
    decide +kernel
  obtain ⟨r, hr, htexts⟩ : ∃ r, sampleSums.apply (c.merge d) .reject = .ok r ∧
      r.documents.map Document.text = ["left + right;", "other + b;", "a + b;"] :=
    ⟨_, rfl, by decide +kernel⟩
  obtain ⟨mid, hmid, hlast⟩ :=
    ((apply_merge_of_disjoint sampleSums .reject hdisjoint).2.2.1 r).mp hr
  exact ⟨hdisjoint, mid, r, hmid, hlast, hr, htexts⟩

end Snapshot

end SharpLint
