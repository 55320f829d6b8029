import SharpLint.Engine.Repair
import SharpLint.Proofs.Document.Sound

/-!
# Batches one after the other

A batch keeps the names of all documents, and the trees of those that it does not name
(`fixAll_kept`). `Runs` tells a run over several codes as a chain of batches: one that is accepted
hands its snapshot on to the next, which is bound anew, and one that is refused hands on the snapshot
it was given. The report of a run is that of such a chain, for any engine and any codes:

    fixCodes s codes  =  accepted batches from left to right, refused codes noted     (fixCodes_runs)
-/

namespace SharpLint

/-! ## Documents that stay -/

/-- Documents keep their places and ids, and those that are not listed keep their trees. -/
structure Snapshot.Kept (listed : List DocumentId) (s t : Snapshot) : Prop where
  map_id : t.documents.map Document.id = s.documents.map Document.id
  find?_eq : ∀ id, (∀ other ∈ listed, id.same other = false) → t.find? id = s.find? id
  mem : ∀ d ∈ t.documents, (∀ other ∈ listed, d.id.same other = false) → d ∈ s.documents

namespace Snapshot

variable {s t u : Snapshot} {listed more : List DocumentId}

theorem kept_refl (listed : List DocumentId) (s : Snapshot) : Kept listed s s :=
  ⟨rfl, fun _ _ => rfl, fun _ hd _ => hd⟩

theorem Kept.trans (hst : Kept listed s t) (htu : Kept listed t u) : Kept listed s u where
  map_id := htu.map_id.trans hst.map_id
  find?_eq id hid := (htu.find?_eq id hid).trans (hst.find?_eq id hid)
  mem d hd hid := hst.mem d (htu.mem d hd hid) hid

/-- A document of the second snapshot is one of the first. -/
theorem Kept.exists_find? (h : Kept listed s t) {id : DocumentId} {d : Document}
    (hd : t.find? id = some d) : ∃ old, s.find? id = some old := by
  obtain ⟨hmem, hsame⟩ := mem_of_find? hd
  have hid : d.id ∈ s.documents.map Document.id := h.map_id ▸ List.mem_map_of_mem hmem
  obtain ⟨old, hold, heq⟩ := List.mem_map.mp hid
  exact Option.isSome_iff_exists.mp (List.find?_isSome.mpr ⟨old, hold, heq ▸ hsame⟩)

/-- More may be listed than was changed, under any spelling. -/
theorem Kept.mono (h : Kept listed s t)
    (hmore : ∀ id ∈ listed, ∃ other ∈ more, other.same id = true) : Kept more s t := by
  have hunlisted (id : DocumentId) (hid : ∀ other ∈ more, id.same other = false) :
      ∀ other ∈ listed, id.same other = false := by
    intro other hother
    obtain ⟨other', hother', hsame⟩ := hmore other hother
    rw [← hid other' hother', DocumentId.same, DocumentId.same, DocumentId.same_iff.mp hsame]
  exact ⟨h.map_id, fun id hid => h.find?_eq id (hunlisted id hid),
    fun d hd hid => h.mem d hd (hunlisted d.id hid)⟩

theorem kept_setRoot (s : Snapshot) {id : DocumentId} (root : Tree) (hid : id ∈ listed) :
    Kept listed s (s.setRoot id root) := by
  refine ⟨?_, fun other hother => find?_setRoot s root ?_, fun d hd hunlisted => ?_⟩
  · rw [setRoot, List.map_map]
    exact List.map_congr_left fun d _ => id_ite d _ root
  · rw [DocumentId.same_comm]
    exact hother id hid
  · obtain ⟨old, hold, rfl⟩ := List.mem_map.mp hd
    rw [id_ite] at hunlisted
    rwa [hunlisted id hid, if_neg Bool.false_ne_true]

/-- Applied entries change the documents that they name. -/
theorem kept_applyEntries {policy : OverlapPolicy} {entries : List DocumentEdits}
    (hlisted : ∀ entry ∈ entries, entry.document ∈ listed)
    (h : s.applyEntries policy entries = .ok t) : Kept listed s t := by
  induction entries generalizing s with
  | nil =>
    obtain rfl := Except.ok.inj h
    exact kept_refl listed s
  | cons entry entries ih =>
    rw [List.forall_mem_cons] at hlisted
    unfold applyEntries at h
    split at h
    · cases h
    · obtain ⟨root, -, h⟩ := bind_eq_ok h
      exact (kept_setRoot s root hlisted.1).trans (ih hlisted.2 h)

end Snapshot

namespace Engine

variable {e : Engine} {s t : Snapshot} {host : Host} {code : String} {b : BatchResult}

/-! ## One batch -/

/-- A batch that succeeds has merged the changes of the chosen fixes and applied them. -/
theorem fixAll_eq_ok (h : e.fixAll s host code = .ok b) :
    ∃ p merged, e.providers.find? (·.handles code) = some p ∧
      mergeChanges s .empty
        (chooseFixes (((e.analyze s host).withCode code).map (p.propose s host))) = .ok merged ∧
      s.apply merged e.config.engine.overlapPolicy = .ok b.snapshot ∧
      b.documents = merged.documents ∧
      b.fixed = (chooseFixes (((e.analyze s host).withCode code).map (p.propose s host))).length := by
  unfold fixAll at h
  split at h
  · cases h
  rename_i p hp
  split at h
  · cases h
  obtain ⟨merged, hmerged, h⟩ := bind_eq_ok h
  obtain ⟨updated, happly, h⟩ := bind_eq_ok h
  obtain rfl := Except.ok.inj h
  unfold Snapshot.applyChanges at happly
  split at happly
  · rename_i updated' happly'
    obtain rfl := Except.ok.inj happly
    exact ⟨p, merged, hp, hmerged, happly', rfl, rfl⟩
  · cases happly

/-- A batch changes no document but those that it names. -/
theorem fixAll_kept (h : e.fixAll s host code = .ok b) : s.Kept b.documents b.snapshot := by
  obtain ⟨-, merged, -, -, happly, hdocuments, -⟩ := fixAll_eq_ok h
  rw [hdocuments]
  exact Snapshot.kept_applyEntries (fun entry hentry => List.mem_map_of_mem hentry) happly

/-- A batch without fixes leaves the snapshot as it was. -/
theorem snapshot_of_fixed_eq_zero (h : e.fixAll s host code = .ok b) (hfixed : b.fixed = 0) :
    b.snapshot = s := by
  obtain ⟨p, merged, -, hmerged, happly, -, hlength⟩ := fixAll_eq_ok h
  rw [List.eq_nil_of_length_eq_zero (hlength.symm.trans hfixed)] at hmerged
  obtain rfl := Except.ok.inj hmerged
  exact (Except.ok.inj happly).symm

end Engine

/-! ## The report of a run -/

namespace FixReport

/-- The later report has the documents of the earlier one, listed at least as well, and differs in
trees of listed documents only. -/
structure Extends (r r' : FixReport) : Prop where
  listed : ∀ id ∈ r.documents, ∃ id' ∈ r'.documents, id'.same id = true
  kept : r.snapshot.Kept r'.documents r'.snapshot

theorem Extends.refl (r : FixReport) : r.Extends r :=
  ⟨fun id hid => ⟨id, hid, DocumentId.same_iff.mpr rfl⟩, Snapshot.kept_refl _ _⟩

theorem Extends.trans {r r' r'' : FixReport} (h : r.Extends r') (h' : r'.Extends r'') :
    r.Extends r'' := by
  refine ⟨fun id hid => ?_, (h.kept.mono h'.listed).trans h'.kept⟩
  obtain ⟨id', hid', hsame⟩ := h.listed id hid
  obtain ⟨id'', hid'', hsame'⟩ := h'.listed id' hid'
  have hparts := (DocumentId.same_iff.mp hsame').trans (DocumentId.same_iff.mp hsame)
  exact ⟨id'', hid'', DocumentId.same_iff.mpr hparts⟩

/-- Documents that are added are listed with those that were. -/
theorem exists_mem_foldl_addDocument {added documents : List DocumentId} {d : DocumentId}
    (h : d ∈ added ∨ ∃ other ∈ documents, other.same d = true) :
    ∃ other ∈ added.foldl addDocument documents, other.same d = true := by
  induction added generalizing documents with
  | nil => exact h.resolve_left List.not_mem_nil
  | cons first added ih =>
    rw [List.mem_cons, or_assoc] at h
    refine ih ?_
    unfold addDocument
    rcases h with rfl | h | h
    · refine .inr (exists_mem_upsert_fresh (P := fun other : DocumentId => other.same d = true)
        (DocumentId.same_iff.mpr rfl) (fun other heq => ?_) documents)
      rw [id, DocumentId.same_comm]
      exact DocumentId.order_eq_eq_iff.mp heq
    · exact .inl h
    · exact .inr (exists_mem_upsert (P := fun other : DocumentId => other.same d = true) (fun _ hy => hy) h)

variable {r : FixReport} {code : String} {b : Engine.BatchResult}

theorem snapshot_accept (hempty : b.fixed = 0 → b.snapshot = r.snapshot) :
    (r.accept code b).snapshot = b.snapshot := by
  unfold accept
  split
  · rename_i hfixed
    exact (hempty hfixed).symm
  · rfl

theorem failures_accept : (r.accept code b).failures = r.failures := by
  unfold accept
  split
  · rfl
  · rfl

theorem extends_accept (h : r.snapshot.Kept b.documents b.snapshot) : r.Extends (r.accept code b) := by
  unfold accept
  split
  · exact .refl r
  · refine ⟨fun id hid => ?_, h.mono fun id hid => ?_⟩
    · exact exists_mem_foldl_addDocument (.inr ⟨id, hid, DocumentId.same_iff.mpr rfl⟩)
    · exact exists_mem_foldl_addDocument (.inl hid)

end FixReport

namespace Engine

/-! ## A run -/

section

variable {e : Engine} {r : FixReport} {code : String}

theorem fixCode_of_ok {b : BatchResult}
    (h : e.fixAll r.snapshot (Workspace.ofSnapshot r.snapshot).host code = .ok b) :
    e.fixCode r code = r.accept code b := by
  have h : e.fixAll (Workspace.ofSnapshot r.snapshot).snapshot
      (Workspace.ofSnapshot r.snapshot).host code = .ok b := h
  unfold fixCode
  dsimp only
  rw [h]

theorem fixCode_of_error {cause : FixError}
    (h : e.fixAll r.snapshot (Workspace.ofSnapshot r.snapshot).host code = .error cause) :
    e.fixCode r code = { r with failures := r.failures ++ [⟨code, cause⟩] } := by
  have h : e.fixAll (Workspace.ofSnapshot r.snapshot).snapshot
      (Workspace.ofSnapshot r.snapshot).host code = .error cause := h
  unfold fixCode
  dsimp only
  rw [h]

end

theorem extends_fixCode (e : Engine) (r : FixReport) (code : String) :
    r.Extends (e.fixCode r code) := by
  cases hbatch : e.fixAll r.snapshot (Workspace.ofSnapshot r.snapshot).host code with
  | ok b =>
    rw [fixCode_of_ok hbatch]
    exact FixReport.extends_accept (fixAll_kept hbatch)
  | error cause =>
    rw [fixCode_of_error hbatch]
    exact { FixReport.Extends.refl r with }

theorem extends_foldl_fixCode (e : Engine) (codes : List String) (r : FixReport) :
    r.Extends (codes.foldl e.fixCode r) := by
  induction codes generalizing r with
  | nil => exact .refl r
  | cons code codes ih => exact (extends_fixCode e r code).trans (ih _)

/-- A chain of batches: from a snapshot, for some codes, with the accepted results and the refused
codes in order, to the last snapshot. -/
inductive Runs (e : Engine) :
    Snapshot → List String → List BatchResult → List FixFailure → Snapshot → Prop
  | done (s : Snapshot) : Runs e s [] [] [] s
  | accept {s t : Snapshot} {code : String} {codes : List String} {b : BatchResult}
      {results : List BatchResult} {failures : List FixFailure} :
      e.fixAll s (Workspace.ofSnapshot s).host code = .ok b →
      Runs e b.snapshot codes results failures t →
      Runs e s (code :: codes) (b :: results) failures t
  | refuse {s t : Snapshot} {code : String} {codes : List String} {cause : FixError}
      {results : List BatchResult} {failures : List FixFailure} :
      e.fixAll s (Workspace.ofSnapshot s).host code = .error cause →
      Runs e s codes results failures t →
      Runs e s (code :: codes) results (⟨code, cause⟩ :: failures) t

/-- A run that goes on from a report is a chain, and notes the codes that the chain refuses. -/
theorem runs_foldl_fixCode (e : Engine) (codes : List String) (r : FixReport) :
    ∃ results failures, e.Runs r.snapshot codes results failures (codes.foldl e.fixCode r).snapshot ∧
      (codes.foldl e.fixCode r).failures = r.failures ++ failures := by
  induction codes generalizing r with
  | nil => exact ⟨[], [], .done _, (List.append_nil _).symm⟩
  | cons code codes ih =>
    obtain ⟨results, failures, hruns, hfailures⟩ := ih (e.fixCode r code)
    rw [List.foldl_cons, hfailures]
    cases hbatch : e.fixAll r.snapshot (Workspace.ofSnapshot r.snapshot).host code with
    | ok b =>
      rw [fixCode_of_ok hbatch] at hruns ⊢
      rw [FixReport.snapshot_accept (snapshot_of_fixed_eq_zero hbatch)] at hruns
      rw [FixReport.failures_accept]
      exact ⟨b :: results, failures, .accept hbatch hruns, rfl⟩
    | error cause =>
      rw [fixCode_of_error hbatch] at hruns ⊢
      exact ⟨results, ⟨code, cause⟩ :: failures, .refuse hbatch hruns, by simp⟩

/-- A run over any codes keeps the ids of all documents and the trees of those that it does not list.
It is a chain of batches, each on the snapshot that the accepted ones before it left, bound anew, and
its failures are the refused codes in order. -/
theorem fixCodes_runs (e : Engine) (s : Snapshot) (codes : List String) :
    (e.fixCodes s codes).snapshot.documents.map Document.id = s.documents.map Document.id ∧
      (∀ id, (∀ listed ∈ (e.fixCodes s codes).documents, id.same listed = false) →
        (e.fixCodes s codes).snapshot.find? id = s.find? id) ∧
      ∃ results,
        e.Runs s codes results (e.fixCodes s codes).failures (e.fixCodes s codes).snapshot := by
  have hkept : s.Kept (e.fixCodes s codes).documents (e.fixCodes s codes).snapshot :=
    (extends_foldl_fixCode e codes (.start s)).kept
  obtain ⟨results, failures, hruns, hfailures⟩ := runs_foldl_fixCode e codes (.start s)
  have hfailures : (e.fixCodes s codes).failures = failures := hfailures
  refine ⟨hkept.map_id, hkept.find?_eq, results, ?_⟩
  rw [hfailures]
  exact hruns

end Engine

end SharpLint
