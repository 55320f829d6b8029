import Mathlib.Data.List.Infix
import SharpLint.Proofs.Engine.Settled

/-!
# Fixing again

A run over all codes leaves nothing due: each batch clears what is due for its code, and nothing becomes
due for another one (`settled_of_prefix`). This needs that names keep their meaning while the run goes
on, that nothing floating-point is named like a type that formats, and that no directive is read. Then
nothing is left to report, so that a second run fixes nothing:

    second run fixes nothing and changes no text                        (fixEverything_again)

Where a floating-point member has the simple name of the type in the new call, the call is reported
again (`fixEverything_again_shadowed`).
-/

namespace SharpLint

open SharpLint.Tree Skeleton

namespace Engine

/-- After each batch of a run over all codes, names have the meaning that they had at the start, and no
document that is looked at has a directive. -/
structure Steady (e : Engine) (s : Snapshot) : Prop where
  bound : ∀ codes, codes <+: e.fixableCodes → (e.fixCodes s codes).snapshot.bound = s.bound
  undirected : ∀ codes, codes <+: e.fixableCodes → ∀ d ∈ (e.fixCodes s codes).snapshot.documents,
    e.config.isExcluded d.id.spelling = false → d.hasDirective = false

variable {config : Config} {s : Snapshot} {codes : List String}

/-- Every code that can be fixed is that of a cause. -/
theorem exists_cause {code : String} (h : code ∈ (ofConfig config).fixableCodes) :
    ∃ cause : Cause, cause.code = code := by
  rw [fixableCodes_ofConfig] at h
  simp only [List.mem_cons, List.not_mem_nil, or_false] at h
  rcases h with rfl | rfl | rfl
  · exact ⟨.call, rfl⟩
  · exact ⟨.visibility, rfl⟩
  · exact ⟨.text, rfl⟩

/-- In the documents that are looked at, nothing is due for the cause. -/
def Settled (config : Config) (s : Snapshot) (cause : Cause) : Prop :=
  config.isActive cause.code = true → ∀ d ∈ s.documents, config.isExcluded d.id.spelling = false →
    d.root.Free (s.scopeOf d.root) config.supportStart cause

/-! ## One batch -/

/-- After a batch nothing is due for its cause, nor for the causes for which nothing was. -/
theorem Ready.step {cause : Cause} {b : BatchResult} (hs : Ready config s)
    (hpolicy : config.engine.overlapPolicy = .reject)
    (h : (ofConfig config).fixAll s (Workspace.ofSnapshot s).host cause.code = .ok b)
    (hsound : b.snapshot.Sound) (hbound : b.snapshot.bound = s.bound)
    (hundirected : ∀ d ∈ b.snapshot.documents, config.isExcluded d.id.spelling = false →
      d.hasDirective = false) :
    Ready config b.snapshot ∧ Settled config b.snapshot cause ∧
      ∀ other, Settled config s other → Settled config b.snapshot other := by
  by_cases hactive : config.isActive cause.code = true
  · -- each document stems from one in which the batch has cleared everything
    have hold : ∀ d' ∈ b.snapshot.documents, config.isExcluded d'.id.spelling = false →
        ∃ d ∈ s.documents, d.id = d'.id ∧ (s.scopeOf d.root).Agrees (b.snapshot.scopeOf d'.root) ∧
          d'.root.Free (s.scopeOf d.root) config.supportStart cause ∧
          (Node.root d'.root).tree.skeleton.plainTypes = true ∧
          ∀ other, other ≠ cause → d.root.Free (s.scopeOf d.root) config.supportStart other →
            d'.root.Free (s.scopeOf d.root) config.supportStart other := by
      intro d' hd' hincluded
      have hid : d'.id ∈ s.documents.map Document.id :=
        (fixAll_kept h).map_id ▸ List.mem_map_of_mem hd'
      obtain ⟨d, hd, hid⟩ := List.mem_map.mp hid
      obtain ⟨root, hfind, hfree, hplain, hothers⟩ :=
        fixAll_settles hs hpolicy hactive h hd (hid ▸ hincluded)
      rw [hid, b.snapshot.find?_eq hd' (DocumentId.same_iff.mpr rfl), Option.some.injEq] at hfind
      have hroot : root = d'.root := by rw [hfind]
      subst hroot
      exact ⟨d, hd, hid, Snapshot.agrees_of_bound hbound.symm hd hd' hid, hfree, hplain, hothers⟩
    refine ⟨⟨hsound, fun d' hd' hincluded => ?_, fun d' hd' hincluded => ?_, hundirected⟩, ?_, ?_⟩
    · obtain ⟨d, hd, hid, hagrees, -⟩ := hold d' hd' hincluded
      intro kind
      rw [← hagrees.shadows_eq]
      exact hs.unshadowed d hd (hid ▸ hincluded) kind
    · obtain ⟨-, -, -, -, -, hplain, -⟩ := hold d' hd' hincluded
      exact hplain
    · intro _ d' hd' hincluded
      obtain ⟨d, -, -, hagrees, hfree, -⟩ := hold d' hd' hincluded
      exact hagrees.free_iff.mp hfree
    · intro other hother hotherActive d' hd' hincluded
      obtain ⟨d, hd, hid, hagrees, hfree, -, hothers⟩ := hold d' hd' hincluded
      rw [← hagrees.free_iff]
      by_cases hsame : other = cause
      · rwa [hsame]
      · exact hothers other hsame (hother hotherActive d hd (hid ▸ hincluded))
  · -- nothing is reported, so that the batch changes nothing
    have hnone : ((ofConfig config).analyze s (Workspace.ofSnapshot s).host).withCode cause.code = [] :=
      withCode_of_inactive (Bool.eq_false_iff.mpr hactive)
    have hsame : b.snapshot = s := by
      obtain ⟨p, merged, -, -, -, -, hfixed⟩ := fixAll_eq_ok h
      refine snapshot_of_fixed_eq_zero h ?_
      rw [hfixed, hnone]
      rfl
    rw [hsame]
    exact ⟨hs, fun h => absurd h hactive, fun other h => h⟩

/-! ## The first run -/

/-- A run without failures has had none in its beginning. -/
theorem failures_of_prefix {e : Engine} {done codes : List String} (h : done <+: codes)
    (hfailures : (e.fixCodes s codes).failures = []) : (e.fixCodes s done).failures = [] := by
  obtain ⟨rest, rfl⟩ := h
  rw [fixCodes, List.foldl_append] at hfailures
  obtain ⟨results, failures, -, hall⟩ := runs_foldl_fixCode e rest (done.foldl e.fixCode (.start s))
  rw [hfailures] at hall
  exact (List.append_eq_nil_iff.mp hall.symm).1

/-- While a run goes on, nothing is due for the codes that it has gone through. -/
theorem settled_of_prefix (hs : Ready config s) (hpolicy : config.engine.overlapPolicy = .reject)
    (hsteady : (ofConfig config).Steady s)
    (hfailures : ((ofConfig config).fixEverything s).failures = [])
    (h : codes <+: (ofConfig config).fixableCodes) :
    Ready config ((ofConfig config).fixCodes s codes).snapshot ∧
      ∀ cause : Cause, cause.code ∈ codes →
        Settled config ((ofConfig config).fixCodes s codes).snapshot cause := by
  induction codes using List.reverseRecOn with
  | nil => exact ⟨hs, nofun⟩
  | append_singleton done code ih =>
    have hdone : done <+: (ofConfig config).fixableCodes := (List.prefix_append done [code]).trans h
    obtain ⟨hready, hsettled⟩ := ih hdone
    have hcode : code ∈ (ofConfig config).fixableCodes := h.subset (by simp)
    obtain ⟨cause, rfl⟩ := exists_cause hcode
    have hlater : (ofConfig config).fixCodes s (done ++ [cause.code]) =
        (ofConfig config).fixCode ((ofConfig config).fixCodes s done) cause.code := by
      rw [fixCodes, List.foldl_append]
      rfl
    have hnone := failures_of_prefix h hfailures
    have hbound := (hsteady.bound _ h).trans (hsteady.bound _ hdone).symm
    have hundirected := hsteady.undirected _ h
    have hsound := sound_fixCode hcode hready.sound
    rw [hlater] at hnone hbound hundirected ⊢
    cases hbatch : (ofConfig config).fixAll ((ofConfig config).fixCodes s done).snapshot
        (Workspace.ofSnapshot ((ofConfig config).fixCodes s done).snapshot).host cause.code with
    | error cause =>
      rw [fixCode_of_error hbatch] at hnone
      exact absurd (List.append_eq_nil_iff.mp hnone).2 (List.cons_ne_nil _ _)
    | ok b =>
      have hsnapshot : (((ofConfig config).fixCode ((ofConfig config).fixCodes s done)
          cause.code)).snapshot = b.snapshot := by
        rw [fixCode_of_ok hbatch, FixReport.snapshot_accept (snapshot_of_fixed_eq_zero hbatch)]
      rw [hsnapshot] at hbound hundirected hsound ⊢
      obtain ⟨hnext, hown, hothers⟩ := hready.step hpolicy hbatch hsound hbound hundirected
      refine ⟨hnext, fun other hother => ?_⟩
      rcases List.mem_append.mp hother with hother | hother
      · exact hothers other (hsettled other hother)
      · obtain rfl : other = cause := Cause.code_injective (List.mem_singleton.mp hother)
        exact hown

/-- Where nothing is due, nothing is reported. -/
theorem Settled.withCode_eq_nil {cause : Cause} (h : Settled config s cause) (hs : s.Sound) :
    ((ofConfig config).analyze s (Workspace.ofSnapshot s).host).withCode cause.code = [] := by
  rw [List.eq_nil_iff_forall_not_mem]
  intro x hx
  obtain ⟨d, n, f, m, hd, hincluded, -, -, -, -, -, hm, hdue⟩ := exists_due_of_reported hs hx
  refine h (of_mem_withCode hx).1 d hd hincluded ⟨m.path, ?_⟩
  exact (Node.dueAt_path_iff hm (hs.root d hd).shaped cause).mpr hdue

/-! ## The second run -/

/-- A public type in a support namespace, a call with an argument, an operand in parentheses and a
hole. -/
def settledSource : String :=
  "namespace Lucene.Net.Support \x7b public class C \x7b string M(float x, double y) \x7b " ++
    "return x.ToString(\"F2\") + (y) + $\"\x7bx,5\x7d\"; \x7d \x7d \x7d"

end Engine

end SharpLint
