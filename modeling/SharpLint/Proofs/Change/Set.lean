import SharpLint.Proofs.Change.Sound
import SharpLint.Proofs.Document.Sound

/-!
# Change sets that fit a snapshot

A merged set has the edits of both sets and no others (`Has.merge_left`, `Has.merge_right`,
`Meets.merge`). A change set fits a snapshot when every declaration was found and every edit fits the
tree of its document. Merging keeps this (`Fits.merge`), and a set that fits is applied and leaves a
sound snapshot, unless two of its edits overlap and overlaps are refused (`apply_sound`).
-/

namespace SharpLint

/-- The document is there, and the edits have the property in its tree. -/
def DocumentEdits.Meet (P : Tree → Edit → Prop) (s : Snapshot) (entry : DocumentEdits) : Prop :=
  ∃ d, s.find? entry.document = some d ∧ ∀ e ∈ entry.edits, P d.root e

/-- The document is there, and the edits fit its tree. -/
def DocumentEdits.Fits (s : Snapshot) (entry : DocumentEdits) : Prop :=
  ∃ d, s.find? entry.document = some d ∧ ∀ e ∈ entry.edits, e.Fits d.root

namespace ChangeSet

/-- Nothing is left unresolved, and all edits fit the trees of their documents. -/
structure Fits (s : Snapshot) (c : ChangeSet) : Prop where
  entries : ∀ entry ∈ c.entries, entry.Fits s
  complete : c.unresolved = []

/-- All edits have the property in the trees of their documents. -/
def Meets (P : Tree → Edit → Prop) (s : Snapshot) (c : ChangeSet) : Prop :=
  ∀ entry ∈ c.entries, entry.Meet P s

/-- The edit is one of those of the document. -/
def Has (c : ChangeSet) (document : DocumentId) (e : Edit) : Prop :=
  ∃ entry ∈ c.entries, entry.document.same document = true ∧ e ∈ entry.edits

variable {s : Snapshot} {c : ChangeSet}

/-! ## What all edits of a set have -/

section

variable {P : Tree → Edit → Prop}

theorem meets_empty : empty.Meets P s := nofun

theorem Meets.addAll (h : c.Meets P s) {new : DocumentEdits} (hnew : new.Meet P s) :
    (c.addAll new).Meets P s := by
  intro entry hentry
  obtain rfl | hentry | ⟨old, hold, heq, rfl⟩ := upsert_cases hentry
  · exact hnew
  · exact h entry hentry
  · -- both have edits for the same document
    obtain ⟨d, hd, hedits⟩ := h old hold
    obtain ⟨d', hd', hedits'⟩ := hnew
    have hsame := DocumentId.same_iff.mp (DocumentId.order_eq_eq_iff.mp heq)
    unfold Snapshot.find? DocumentId.same at hd hd'
    rw [hsame, hd] at hd'
    obtain rfl := Option.some.inj hd'
    exact ⟨d, hd, List.forall_mem_append.mpr ⟨hedits, hedits'⟩⟩

theorem Meets.add (h : c.Meets P s) {document : DocumentId} {d : Document} {e : Edit}
    (hd : s.find? document = some d) (he : P d.root e) : (c.add document e).Meets P s :=
  h.addAll ⟨d, hd, List.forall_mem_singleton.mpr he⟩

theorem Meets.imp {Q : Tree → Edit → Prop} (h : c.Meets P s)
    (himp : ∀ d ∈ s.documents, ∀ e, P d.root e → Q d.root e) : c.Meets Q s := by
  intro entry hentry
  obtain ⟨d, hd, hedits⟩ := h entry hentry
  exact ⟨d, hd, fun e he => himp d (Snapshot.mem_of_find? hd).1 e (hedits e he)⟩

theorem Meets.merge (h : c.Meets P s) {new : ChangeSet} (hnew : new.Meets P s) :
    (c.merge new).Meets P s :=
  List.foldlRecOn new.entries ChangeSet.addAll (motive := fun c => c.Meets P s) h
    fun _ hc entry hentry => hc.addAll (hnew entry hentry)

end

/-! ## No edit is lost -/

section

variable {document : DocumentId} {e : Edit}

theorem Has.addAll (h : c.Has document e) (new : DocumentEdits) : (c.addAll new).Has document e :=
  exists_mem_upsert (fun _ hold => ⟨hold.1, List.mem_append_left _ hold.2⟩) h

theorem has_addAll (c : ChangeSet) {new : DocumentEdits} (hsame : new.document.same document = true)
    (he : e ∈ new.edits) : (c.addAll new).Has document e := by
  refine exists_mem_upsert_fresh ⟨hsame, he⟩ (fun old heq => ⟨?_, List.mem_append_right _ he⟩) _
  have hold := DocumentId.same_iff.mp (DocumentId.order_eq_eq_iff.mp heq)
  exact DocumentId.same_iff.mpr (hold.symm.trans (DocumentId.same_iff.mp hsame))

theorem has_add (c : ChangeSet) : (c.add document e).Has document e :=
  has_addAll c (DocumentId.same_iff.mpr rfl) (List.mem_singleton_self e)

theorem Has.add (h : c.Has document e) (other : DocumentId) (f : Edit) :
    (c.add other f).Has document e :=
  h.addAll _

theorem Has.foldl_addAll (h : c.Has document e) (entries : List DocumentEdits) :
    (entries.foldl ChangeSet.addAll c).Has document e :=
  List.foldlRecOn entries ChangeSet.addAll (motive := fun c => c.Has document e) h
    fun _ hc entry _ => hc.addAll entry

theorem Has.merge_left (h : c.Has document e) (new : ChangeSet) : (c.merge new).Has document e :=
  h.foldl_addAll new.entries

theorem Has.merge_right (c : ChangeSet) {new : ChangeSet} (h : new.Has document e) :
    (c.merge new).Has document e := by
  obtain ⟨entry, hentry, hsame, he⟩ := h
  obtain ⟨before, behind, hentries⟩ := List.append_of_mem hentry
  show (new.entries.foldl ChangeSet.addAll c).Has document e
  rw [hentries, List.foldl_append, List.foldl_cons]
  exact (has_addAll _ hsame he).foldl_addAll behind

end

/-! ## Sets that fit -/

theorem fits_empty (s : Snapshot) : empty.Fits s := ⟨nofun, rfl⟩

theorem Fits.addAll (h : c.Fits s) {new : DocumentEdits} (hnew : new.Fits s) :
    (c.addAll new).Fits s :=
  ⟨Meets.addAll (P := fun root e => e.Fits root) h.entries hnew, h.complete⟩

theorem Fits.add (h : c.Fits s) {document : DocumentId} {d : Document} {e : Edit}
    (hd : s.find? document = some d) (he : e.Fits d.root) : (c.add document e).Fits s :=
  h.addAll ⟨d, hd, List.forall_mem_singleton.mpr he⟩

theorem fits_single {document : DocumentId} {d : Document} {e : Edit}
    (hd : s.find? document = some d) (he : e.Fits d.root) : (single document e).Fits s :=
  (fits_empty s).add hd he

theorem Fits.merge (h : c.Fits s) {new : ChangeSet} (hnew : new.Fits s) : (c.merge new).Fits s := by
  have hall : (new.entries.foldl ChangeSet.addAll c).Fits s :=
    List.foldlRecOn new.entries ChangeSet.addAll (motive := fun c => c.Fits s) h
      fun _ hc entry hentry => hc.addAll (hnew.entries entry hentry)
  refine ⟨hall.entries, ?_⟩
  show c.unresolved ++ new.unresolved = []
  rw [h.complete, hnew.complete]
  rfl

theorem Fits.isComplete (h : c.Fits s) : c.isComplete = true := by
  rw [ChangeSet.isComplete, h.complete]
  rfl

end ChangeSet

/-! ## One edit -/

/-- An edit of a node that is found is made, whatever happens to edits that overlap. -/
theorem applyEdits_ofNode (document : DocumentId) (policy : OverlapPolicy) {root : Tree} {n : Node}
    (h : (Node.root root).findNode? n.span n.kind = some n) (r : Tree) :
    applyEdits document root [.ofNode n r] policy = .ok (n.replaceWith r) := by
  have htarget : findTarget document (.root root) (.ofNode n r) = .ok n := by
    simp only [findTarget, Edit.ofNode, h]
  have hdistinct : distinctEdits [.ofNode n r] = [.ofNode n r] := rfl
  have hlocated : locateEdits document (.root root) [.ofNode n r] =
      .ok [⟨n.fullSpan, .ofNode n r⟩] := by
    simp only [locateEdits, htarget, bind, Except.bind, pure, Except.pure]
  have hsorted : stableSort Located.order [⟨n.fullSpan, .ofNode n r⟩] =
      [⟨n.fullSpan, .ofNode n r⟩] := rfl
  have hreplaced : replaceTargets document root [.ofNode n r] = .ok (n.replaceWith r) := by
    rw [replaceTargets, htarget]
    rfl
  simp only [applyEdits, hdistinct, hlocated, hsorted, acceptEdits, List.find?_nil, List.nil_append,
    List.reverse_singleton, List.map_cons, List.map_nil, bind, Except.bind, hreplaced]

/-- A set of one edit replaces a tree of one document. -/
theorem Snapshot.apply_single (policy : OverlapPolicy) {s : Snapshot} {document : Document}
    (hd : s.find? document.id = some document) {n : Node}
    (h : (Node.root document.root).findNode? n.span n.kind = some n) (r : Tree) :
    s.apply (.single document.id (.ofNode n r)) policy =
      .ok (s.setRoot document.id (n.replaceWith r)) := by
  show s.applyEntries policy [⟨document.id, [.ofNode n r]⟩] = _
  simp only [applyEntries, hd, applyEdits_ofNode document.id policy h r, bind, Except.bind]

/-! ## Application -/

/-- An outcome of applying edits: a result, or an overlap that is refused. -/
def AppliesOr (policy : OverlapPolicy) (applied : Except ApplyError Snapshot) : Prop :=
  (∃ s, applied = .ok s ∧ s.Sound) ∨
    policy = .reject ∧ ∃ document first second, applied = .error (.overlap document first second)

namespace Snapshot

variable {s : Snapshot}

/-- Entries of different documents that fit are applied one after the other. -/
theorem applyEntries_sound (policy : OverlapPolicy) {entries : List DocumentEdits} (hs : s.Sound)
    (hsorted : SortedBy DocumentEdits.document entries) (hfits : ∀ entry ∈ entries, entry.Fits s) :
    AppliesOr policy (s.applyEntries policy entries) := by
  induction entries generalizing s with
  | nil => exact .inl ⟨s, rfl, hs⟩
  | cons entry entries ih =>
    obtain ⟨hlt, hsorted⟩ := List.pairwise_cons.mp hsorted
    obtain ⟨⟨d, hd, hedits⟩, hfits⟩ := List.forall_mem_cons.mp hfits
    rw [applyEntries, hd]
    obtain ⟨root, hok, hroot⟩ | ⟨hreject, first, second, herror⟩ :=
      applyEdits_sound entry.document policy (hs.root d (mem_of_find? hd).1) hedits
    · simp only [hok, bind, Except.bind]
      refine ih (hs.setRoot entry.document hroot) hsorted fun other hother => ?_
      -- the documents still to come are as they were
      obtain ⟨d', hd', hedits'⟩ := hfits other hother
      have hne := DocumentId.same_eq_false_of_lt (hlt other hother)
      exact ⟨d', by rw [find?_setRoot s root hne, hd'], hedits'⟩
    · simp only [herror, bind, Except.bind]
      exact .inr ⟨hreject, _, _, _, rfl⟩

/-- A change set that fits is applied, or two edits overlap and that is refused. -/
theorem apply_sound (policy : OverlapPolicy) (hs : s.Sound) {c : ChangeSet} (hc : c.Fits s) :
    AppliesOr policy (s.apply c policy) :=
  applyEntries_sound policy hs c.sorted hc.entries

end Snapshot

end SharpLint
