import SharpLint.Proofs.Engine.Batches
import SharpLint.Proofs.Engine.FixAll

/-!
# Runs that change nothing

A run over all codes leaves the snapshot alone exactly when every batch is idle: it fixes nothing or
fails (`total_foldl_fixCode`). On a sound snapshot a batch is idle when the code has no diagnostic, or
when overlapping edits are refused (`idle_iff`). A run keeps the snapshot sound (`sound_fixCodes`).
-/

namespace SharpLint

/-! ## Counting -/

namespace FixReport

theorem le_total_setCount (code : String) (n : Nat) (counts : List (String × Nat)) :
    n ≤ (setCount code n counts).foldr (fun entry m => entry.2 + m) 0 := by
  induction counts with
  | nil => exact Nat.le_refl n
  | cons entry counts ih =>
    obtain ⟨c, m⟩ := entry
    rw [setCount]
    split
    · exact Nat.le_add_right _ _
    · exact Nat.le_add_right _ _
    · exact Nat.le_trans ih (Nat.le_add_left _ _)

end FixReport

namespace Engine

/-! ## Idle batches -/

/-- A batch of the code fixes nothing, or fails. -/
def Idle (e : Engine) (s : Snapshot) (code : String) : Prop :=
  ∀ b, e.fixAll s (Workspace.ofSnapshot s).host code = .ok b → b.fixed = 0

variable {e : Engine} {r : FixReport} {code : String}

/-- After an idle batch, snapshot and counts are as they were. -/
theorem fixCode_of_idle (h : e.Idle r.snapshot code) :
    (e.fixCode r code).snapshot = r.snapshot ∧ (e.fixCode r code).fixed = r.fixed := by
  unfold fixCode
  dsimp only
  split
  · rename_i b hb
    rw [FixReport.accept, if_pos (h b hb)]
    exact ⟨rfl, rfl⟩
  · exact ⟨rfl, rfl⟩

/-- A batch that is not idle is counted. -/
theorem total_fixCode_pos (h : ¬e.Idle r.snapshot code) : 0 < (e.fixCode r code).total := by
  unfold Idle at h
  rw [Classical.not_forall] at h
  obtain ⟨b, hb⟩ := h
  obtain ⟨hb, hfixed⟩ := Classical.not_imp.mp hb
  rw [fixCode_of_ok hb, FixReport.accept, if_neg hfixed]
  exact Nat.lt_of_lt_of_le (Nat.pos_of_ne_zero hfixed) (FixReport.le_total_setCount _ _ _)

/-- A run counts nothing exactly when every batch is idle, each on the snapshot of the start. -/
theorem total_foldl_fixCode (codes : List String) :
    (codes.foldl e.fixCode r).total = 0 ↔
      r.total = 0 ∧ ∀ code ∈ codes, e.Idle r.snapshot code := by
  induction codes generalizing r with
  | nil => simp
  | cons code codes ih =>
    rw [List.foldl_cons, ih, List.forall_mem_cons]
    by_cases hidle : e.Idle r.snapshot code
    · obtain ⟨hsnapshot, hfixed⟩ := fixCode_of_idle hidle
      rw [hsnapshot, FixReport.total, hfixed]
      simp [hidle, FixReport.total]
    · have hpos := total_fixCode_pos hidle
      constructor
      · rintro ⟨hzero, -⟩
        omega
      · rintro ⟨-, hfirst, -⟩
        exact absurd hfirst hidle

theorem snapshot_foldl_fixCode {codes : List String} (h : ∀ code ∈ codes, e.Idle r.snapshot code) :
    (codes.foldl e.fixCode r).snapshot = r.snapshot := by
  induction codes generalizing r with
  | nil => rfl
  | cons code codes ih =>
    rw [List.forall_mem_cons] at h
    have hsnapshot := (fixCode_of_idle h.1).1
    rw [List.foldl_cons, ih (fun code hcode => hsnapshot ▸ h.2 code hcode), hsnapshot]

/-! ## Runs on sound snapshots -/

variable {config : Config} {s : Snapshot}

theorem sound_fixCode (hcode : code ∈ (ofConfig config).fixableCodes) (h : r.snapshot.Sound) :
    ((ofConfig config).fixCode r code).snapshot.Sound := by
  unfold fixCode
  dsimp only
  split
  · rename_i b hb
    rw [FixReport.accept]
    split
    · exact h
    · obtain ⟨b', hb', -, hsound⟩ | ⟨-, document, first, second, herror⟩ :=
        fixAll_outcome hcode h (Workspace.knows_host h)
      · obtain rfl := Except.ok.inj (hb.symm.trans hb')
        exact hsound
      · cases hb.symm.trans herror
  · exact h

/-- A run over codes that can be fixed keeps a snapshot sound. -/
theorem sound_fixCodes {codes : List String} (hcodes : ∀ code ∈ codes, code ∈ (ofConfig config).fixableCodes)
    (h : s.Sound) : ((ofConfig config).fixCodes s codes).snapshot.Sound := by
  suffices hfold : ∀ codes : List String, (∀ code ∈ codes, code ∈ (ofConfig config).fixableCodes) →
      ∀ r : FixReport, r.snapshot.Sound → (codes.foldl (ofConfig config).fixCode r).snapshot.Sound from
    hfold codes hcodes (.start s) h
  intro codes
  induction codes with
  | nil => exact fun _ _ h => h
  | cons code codes ih =>
    intro hcodes r h
    rw [List.forall_mem_cons] at hcodes
    exact ih hcodes.2 _ (sound_fixCode hcodes.1 h)

/-- A batch on a sound snapshot is idle when nothing is reported, or when overlaps are refused. -/
theorem idle_iff (hcode : code ∈ (ofConfig config).fixableCodes) (h : s.Sound) :
    (ofConfig config).Idle s code ↔
      ((ofConfig config).analyzeWorkspace (.ofSnapshot s)).withCode code = [] ∨
        config.engine.overlapPolicy = .reject ∧ ∃ document first second,
          (ofConfig config).fixAll s (Workspace.ofSnapshot s).host code =
            .error (.apply (.overlap document first second)) := by
  obtain ⟨b, hb, hfixed, -⟩ | hrefused := fixAll_outcome hcode h (Workspace.knows_host h)
  · constructor
    · intro hidle
      exact .inl (List.eq_nil_of_length_eq_zero (hfixed.symm.trans (hidle b hb)))
    · rintro (hnone | ⟨-, document, first, second, herror⟩) b' hb'
      · obtain rfl := Except.ok.inj (hb.symm.trans hb')
        rw [hfixed]
        exact congrArg List.length hnone
      · cases hb'.symm.trans herror
  · refine ⟨fun _ => .inr hrefused, fun _ b hb => ?_⟩
    obtain ⟨-, document, first, second, herror⟩ := hrefused
    cases hb.symm.trans herror

end Engine

end SharpLint
