import SharpLint.Binding.Workspace
import SharpLint.Document.Order
import SharpLint.Proofs.Grammar.RankUnit

/-!
# Sound snapshots

A snapshot is sound when the trees of its documents are sound. Source texts give a sound snapshot (`sound_ofSources`), and it stays one when a tree is put in the place of
another (`Sound.setRoot`). The trees of source texts are also laid (`laid_snapshot`).
-/

namespace SharpLint

namespace Snapshot

/-- The trees of the documents are sound. -/
structure Sound (s : Snapshot) : Prop where
  root : ∀ d ∈ s.documents, d.root.Sound

variable {s : Snapshot}

theorem find?_eq (s : Snapshot) {d : Document} (hd : d ∈ s.documents) {id : DocumentId}
    (hid : d.id.same id = true) : s.find? id = some d :=
  s.sorted.find?_eq hd hid

theorem mem_of_find? {id : DocumentId} {d : Document} (h : s.find? id = some d) :
    d ∈ s.documents ∧ d.id.same id = true := by
  have hid := @List.find?_some _ (fun d : Document => d.id.same id) d s.documents h
  exact ⟨List.mem_of_find?_eq_some h, hid⟩

/-! ## Reading source texts -/

theorem sound_empty : empty.Sound := ⟨nofun⟩

theorem Sound.insert (h : s.Sound) {d : Document} (hd : d.root.Sound) : (s.insert d).Sound := by
  refine ⟨fun e he => ?_⟩
  obtain rfl | he | ⟨-, -, -, rfl⟩ := upsert_cases he
  · exact hd
  · exact h.root e he
  · exact hd

/-- What holds of no document, and is kept when the tree of a source is put in, holds of the snapshot
of the sources. -/
theorem ofSources_rec {P : Snapshot → Prop} {sources : List (String × String)} (hempty : P .empty)
    (hinsert : ∀ s d, P s → (∃ source ∈ sources, parse source.2 = .ok d.root) → P (s.insert d))
    (h : ofSources sources = .ok s) : P s := by
  suffices hfold : ∀ (rest : List (String × String)) (start : Snapshot), (∀ x ∈ rest, x ∈ sources) →
      P start →
      rest.foldlM (fun s source => (Document.parse ⟨source.1⟩ source.2).map s.insert) start = .ok s →
      P s from hfold sources .empty (fun _ hx => hx) hempty h
  intro rest
  induction rest with
  | nil =>
    intro start _ hstart h
    obtain rfl := Except.ok.inj h
    exact hstart
  | cons source rest ih =>
    intro start hrest hstart h
    rw [List.forall_mem_cons] at hrest
    rw [List.foldlM_cons] at h
    obtain ⟨mid, hmid, h⟩ := bind_eq_ok h
    cases hparse : parse source.2 with
    | error e => simp [Document.parse, hparse, Except.map] at hmid
    | ok root =>
      simp only [Document.parse, hparse, Except.map, Except.ok.injEq] at hmid
      rw [← hmid] at h
      exact ih _ hrest.2 (hinsert _ _ hstart ⟨source, hrest.1, hparse⟩) h

/-- Source texts that can be read give a sound snapshot. -/
theorem sound_ofSources {sources : List (String × String)} (h : ofSources sources = .ok s) :
    s.Sound := by
  refine ofSources_rec sound_empty (fun s d hs hd => ?_) h
  obtain ⟨source, -, hroot⟩ := hd
  exact hs.insert (sound_parse hroot)

/-! ## Other trees -/

theorem Sound.setRoot (h : s.Sound) (id : DocumentId) {root : Tree} (hroot : root.Sound) :
    (s.setRoot id root).Sound := by
  refine ⟨fun d hd => ?_⟩
  obtain ⟨old, hold, rfl⟩ := List.mem_map.mp hd
  split
  · exact hroot
  · exact h.root old hold

/-- Another tree is put in the place of that of one document. -/
theorem documents_setRoot (s : Snapshot) {d : Document} (hd : d ∈ s.documents) (root : Tree) :
    (s.setRoot d.id root).documents =
      s.documents.map fun other => if other = d then ⟨d.id, root⟩ else other := by
  refine List.map_congr_left fun other hother => ?_
  by_cases hsame : other.id.same d.id = true
  · obtain rfl : other = d := Option.some.inj
      ((s.find?_eq hother hsame).symm.trans (s.find?_eq hd (DocumentId.same_iff.mpr rfl)))
    rw [if_pos hsame, if_pos rfl]
  · have hne : other ≠ d := by
      rintro rfl
      exact hsame (DocumentId.same_iff.mpr rfl)
    rw [if_neg hsame, if_neg hne]

/-- Another document is found as before. -/
theorem find?_setRoot (s : Snapshot) {id other : DocumentId} (root : Tree)
    (hother : id.same other = false) : (s.setRoot id root).find? other = s.find? other := by
  have hne (d : Document) (hd : d.id.same other = true) : d.id.same id = false := by
    rw [Bool.eq_false_iff]
    intro hid
    have hsame : id.same other = true :=
      DocumentId.same_iff.mpr ((DocumentId.same_iff.mp hid).symm.trans (DocumentId.same_iff.mp hd))
    rw [hother] at hsame
    cases hsame
  unfold setRoot find?
  dsimp only
  induction s.documents with
  | nil => rfl
  | cons d ds ih =>
    rw [List.map_cons, List.find?_cons, List.find?_cons, ih, id_ite]
    cases hd : d.id.same other with
    | true => rw [hne d hd, if_neg (by decide)]
    | false => rfl

/-- Each document of some sources is the tree of one of them. -/
theorem exists_source {sources : List (String × String)} {s : Snapshot}
    (h : ofSources sources = .ok s) :
    ∀ d ∈ s.documents, ∃ source ∈ sources, parse source.2 = .ok d.root := by
  refine ofSources_rec
    (P := fun s => ∀ d ∈ s.documents, ∃ source ∈ sources, parse source.2 = .ok d.root)
    nofun (fun s d hs hd e he => ?_) h
  -- the document was there before, or is the one just read
  obtain rfl | he | ⟨-, -, -, rfl⟩ := upsert_cases he
  · exact hd
  · exact hs e he
  · exact hd

end Snapshot

namespace Workspace

/-- A workspace of source texts is that of their snapshot. -/
theorem ofSources_eq_ok {sources : List (String × String)} {w : Workspace}
    (h : ofSources sources = .ok w) :
    Snapshot.ofSources sources = .ok w.snapshot ∧ w = ofSnapshot w.snapshot := by
  unfold ofSources at h
  cases hs : Snapshot.ofSources sources with
  | error e => simp [hs, Except.map] at h
  | ok s =>
    simp only [hs, Except.map, Except.ok.injEq] at h
    rw [← h]
    exact ⟨rfl, rfl⟩

/-- A check that succeeds on the workspace of some sources. -/
theorem exists_of_any {sources : List (String × String)} {p : Workspace → Bool}
    (h : (ofSources sources).toOption.any p = true) :
    ∃ w, ofSources sources = .ok w ∧ p w = true := by
  cases hw : ofSources sources with
  | error e =>
    rw [hw] at h
    cases h
  | ok w =>
    rw [hw] at h
    exact ⟨w, rfl, h⟩

theorem sound_snapshot {sources : List (String × String)} {w : Workspace}
    (h : ofSources sources = .ok w) : w.snapshot.Sound :=
  Snapshot.sound_ofSources (ofSources_eq_ok h).1

theorem laid_snapshot {sources : List (String × String)} {w : Workspace}
    (h : ofSources sources = .ok w) : ∀ d ∈ w.snapshot.documents, d.root.Laid := by
  intro d hd
  obtain ⟨source, -, hroot⟩ := Snapshot.exists_source (ofSources_eq_ok h).1 d hd
  exact laid_parse hroot

end Workspace

end SharpLint
