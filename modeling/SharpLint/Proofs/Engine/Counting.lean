import SharpLint.Proofs.Engine.Rerun

/-!
# What a run counts

A report keeps one count for each code, and a batch that fixes something sets the count of its code. So
a code that is given twice counts with its last batch only. The report of a run is that of its accepted
batches (`fixed_foldl_fixCode`), for any engine and any codes, and

    total of the report = sum over all accepted batches
      ↔ no code has two batches that fix something                       (total_fixCodes_eq_sum_iff)

The total is too small otherwise, and never too large. Codes that are all different count in full, hence
so does a run over all codes that can be fixed (`total_fixEverything`). A code given twice can fix
something twice, as a new call can be reported again (`total_fixCodes_shadowed`).
-/

namespace SharpLint

/-! ## Counts by code -/

namespace FixReport

open Std

/-- The count of a code. -/
def countOf (code : String) (counts : List (String × Nat)) : Nat :=
  ((counts.find? (·.1 == code)).map Prod.snd).getD 0

/-- Sum of all counts. -/
def sumOf (counts : List (String × Nat)) : Nat := counts.foldr (fun entry n => entry.2 + n) 0

/-- Codes in order, each once. -/
def SortedCounts (counts : List (String × Nat)) : Prop :=
  counts.Pairwise fun a b => compareText a.1 b.1 = .lt

variable {code other : String} {n : Nat} {counts : List (String × Nat)}

theorem ne_of_compareText {a b : String} (h : compareText a b ≠ .eq) : a ≠ b := by
  rintro rfl
  have hself : compareText a a = .eq := ReflCmp.compare_self
  exact h hself

theorem sumOf_cons (entry : String × Nat) (counts : List (String × Nat)) :
    sumOf (entry :: counts) = entry.2 + sumOf counts := rfl

theorem mem_setCount {entry : String × Nat} (h : entry ∈ setCount code n counts) :
    entry = (code, n) ∨ entry ∈ counts := by
  induction counts with
  | nil => exact .inl (List.mem_singleton.mp h)
  | cons first counts ih =>
    rw [setCount] at h
    split at h
    · exact List.mem_cons.mp h
    · rename_i heq
      obtain rfl : code = first.1 := LawfulEqCmp.eq_of_compare heq
      exact (List.mem_cons.mp h).imp_right (List.mem_cons_of_mem first)
    · rcases List.mem_cons.mp h with rfl | h
      · exact .inr List.mem_cons_self
      · exact (ih h).imp_right (List.mem_cons_of_mem first)

theorem SortedCounts.setCount (h : SortedCounts counts) (code : String) (n : Nat) :
    SortedCounts (setCount code n counts) := by
  unfold SortedCounts at h ⊢
  induction counts with
  | nil => exact List.pairwise_singleton _ _
  | cons first counts ih =>
    obtain ⟨hfirst, hcounts⟩ := List.pairwise_cons.mp h
    rw [FixReport.setCount]
    split
    · rename_i hlt
      refine List.pairwise_cons.mpr ⟨fun entry hentry => ?_, h⟩
      rcases List.mem_cons.mp hentry with rfl | hentry
      · exact hlt
      · exact TransCmp.lt_trans hlt (hfirst entry hentry)
    · exact List.pairwise_cons.mpr ⟨hfirst, hcounts⟩
    · rename_i hgt
      refine List.pairwise_cons.mpr ⟨fun entry hentry => ?_, ih hcounts⟩
      rcases mem_setCount hentry with rfl | hentry
      · exact OrientedCmp.lt_of_gt hgt
      · exact hfirst entry hentry

theorem countOf_cons (other : String) (entry : String × Nat) (counts : List (String × Nat)) :
    countOf other (entry :: counts) = if entry.1 = other then entry.2 else countOf other counts := by
  by_cases heq : entry.1 = other
  · simp [countOf, heq]
  · simp [countOf, heq]

theorem countOf_setCount : countOf other (setCount code n counts) =
    if code = other then n else countOf other counts := by
  induction counts with
  | nil => rw [setCount, countOf_cons]
  | cons first counts ih =>
    rw [setCount]
    split
    · rw [countOf_cons]
    · rename_i heq
      obtain rfl : code = first.1 := LawfulEqCmp.eq_of_compare heq
      rw [countOf_cons, countOf_cons]
      split
      · rfl
      · rfl
    · rename_i hgt
      rw [countOf_cons, countOf_cons, ih]
      split
      · rename_i hfirst
        rw [if_neg]
        rintro rfl
        exact ne_of_compareText (by simp [hgt]) hfirst.symm
      · rfl

theorem countOf_eq_zero (h : ∀ entry ∈ counts, entry.1 ≠ code) : countOf code counts = 0 := by
  induction counts with
  | nil => rfl
  | cons first counts ih =>
    rw [List.forall_mem_cons] at h
    rw [countOf_cons, if_neg h.1, ih h.2]

/-- The count that a code had is lost. -/
theorem sumOf_setCount (h : SortedCounts counts) (code : String) (n : Nat) :
    sumOf (setCount code n counts) + countOf code counts = sumOf counts + n := by
  unfold SortedCounts at h
  induction counts with
  | nil => simp [setCount, sumOf, countOf]
  | cons first counts ih =>
    obtain ⟨hfirst, hcounts⟩ := List.pairwise_cons.mp h
    have hlater {c : String} (hc : compareText c first.1 ≠ .gt) :
        ∀ entry ∈ counts, entry.1 ≠ c := by
      rintro entry hentry rfl
      exact hc (OrientedCmp.gt_of_lt (hfirst entry hentry))
    rw [setCount, countOf_cons]
    split
    · rename_i hlt
      rw [if_neg (ne_of_compareText (by simp [hlt])).symm, countOf_eq_zero (hlater (by simp [hlt]))]
      simp only [sumOf_cons]
      omega
    · rename_i heq
      obtain rfl : code = first.1 := LawfulEqCmp.eq_of_compare heq
      rw [if_pos rfl]
      simp only [sumOf_cons]
      omega
    · rename_i hgt
      rw [if_neg (ne_of_compareText (by simp [hgt])).symm]
      have hsum := ih hcounts
      simp only [sumOf_cons]
      omega

/-- The counts of some batches, set one after the other. -/
def setCounts (counts : List (String × Nat)) (entries : List (String × Nat)) : List (String × Nat) :=
  entries.foldl (fun counts entry => setCount entry.1 entry.2 counts) counts

/-- What is set adds up, unless a code is set twice or had a count before. -/
theorem sumOf_setCounts {entries : List (String × Nat)} (hpos : ∀ entry ∈ entries, 0 < entry.2)
    (h : SortedCounts counts) :
    sumOf (setCounts counts entries) ≤ sumOf counts + sumOf entries ∧
      (sumOf (setCounts counts entries) = sumOf counts + sumOf entries ↔
        (entries.map Prod.fst).Nodup ∧ ∀ entry ∈ entries, countOf entry.1 counts = 0) := by
  induction entries generalizing counts with
  | nil => simp [setCounts, sumOf]
  | cons first entries ih =>
    rw [List.forall_mem_cons] at hpos
    obtain ⟨hle, hiff⟩ := ih hpos.2 (h.setCount first.1 first.2)
    have hfirst := sumOf_setCount h first.1 first.2
    have hset : setCounts counts (first :: entries) =
        setCounts (setCount first.1 first.2 counts) entries := rfl
    -- no later batch is for a code with a count exactly when the codes differ and had none
    have hlater : (∀ entry ∈ entries, countOf entry.1 (setCount first.1 first.2 counts) = 0) ↔
        first.1 ∉ entries.map Prod.fst ∧ ∀ entry ∈ entries, countOf entry.1 counts = 0 := by
      simp only [countOf_setCount, List.mem_map, not_exists, not_and]
      rw [← forall₂_and]
      refine forall₂_congr fun entry _ => ?_
      split
      · rename_i heq
        simp [heq, Nat.ne_of_gt hpos.1]
      · rename_i hne
        simp [Ne.symm hne]
    rw [hset, sumOf_cons]
    refine ⟨by omega, ?_⟩
    rw [List.map_cons, List.nodup_cons, List.forall_mem_cons]
    constructor
    · intro heq
      obtain ⟨hnodup, hzero⟩ := hiff.mp (by omega)
      obtain ⟨hnew, hzero⟩ := hlater.mp hzero
      exact ⟨⟨hnew, hnodup⟩, by omega, hzero⟩
    · rintro ⟨⟨hnew, hnodup⟩, hzero, hothers⟩
      have heq := hiff.mpr ⟨hnodup, hlater.mpr ⟨hnew, hothers⟩⟩
      omega

theorem countOf_append (code : String) (xs ys : List (String × Nat)) :
    countOf code (xs ++ ys) =
      if code ∈ xs.map Prod.fst then countOf code xs else countOf code ys := by
  induction xs with
  | nil => simp
  | cons x xs ih =>
    rw [List.cons_append, countOf_cons, ih, List.map_cons, countOf_cons]
    by_cases hx : x.1 = code
    · rw [if_pos hx, if_pos hx, if_pos (hx ▸ List.mem_cons_self)]
    · simp only [if_neg hx, List.mem_cons, Ne.symm hx, false_or]

/-- A code has the count that was set last. -/
theorem countOf_setCounts (code : String) (counts entries : List (String × Nat)) :
    countOf code (setCounts counts entries) = countOf code (entries.reverse ++ counts) := by
  induction entries generalizing counts with
  | nil => rfl
  | cons first entries ih =>
    have hset : setCounts counts (first :: entries) =
        setCounts (setCount first.1 first.2 counts) entries := rfl
    rw [hset, ih, List.reverse_cons, List.append_assoc, countOf_append, countOf_append,
      countOf_setCount, List.singleton_append, countOf_cons]

end FixReport

namespace Engine

open FixReport

/-! ## The accepted batches of a run -/

/-- A batch that was accepted, with its code. -/
structure AcceptedBatch where
  code : String
  result : BatchResult

/-- The batches that are accepted in a run. -/
def acceptedBatches (e : Engine) (s : Snapshot) : List String → List AcceptedBatch
  | [] => []
  | code :: codes =>
    match e.fixAll s (Workspace.ofSnapshot s).host code with
    | .ok b => ⟨code, b⟩ :: acceptedBatches e b.snapshot codes
    | .error _ => acceptedBatches e s codes

variable {e : Engine} {s t : Snapshot} {codes : List String}

/-- They are the results of the chain of batches. -/
theorem Runs.results_eq {results : List BatchResult} {failures : List FixFailure}
    (h : e.Runs s codes results failures t) :
    results = (e.acceptedBatches s codes).map AcceptedBatch.result := by
  induction h with
  | done s => rfl
  | accept hbatch _ ih =>
    rw [acceptedBatches, hbatch]
    exact congrArg _ ih
  | refuse hbatch _ ih =>
    rw [acceptedBatches, hbatch]
    exact ih

theorem acceptedBatches_sublist (e : Engine) (s : Snapshot) (codes : List String) :
    ((e.acceptedBatches s codes).map AcceptedBatch.code).Sublist codes := by
  induction codes generalizing s with
  | nil => exact .refl _
  | cons code codes ih =>
    rw [acceptedBatches]
    split
    · exact (ih _).cons_cons code
    · exact (ih s).cons code

/-- Number of what all the batches fixed. -/
def fixedBy (batches : List AcceptedBatch) : Nat :=
  batches.foldr (fun batch n => batch.result.fixed + n) 0

/-- The accepted batches that fix something, as code and count. -/
def countedBatches (e : Engine) (s : Snapshot) (codes : List String) : List (String × Nat) :=
  ((e.acceptedBatches s codes).map fun batch => (batch.code, batch.result.fixed)).filter (·.2 ≠ 0)

theorem pos_of_mem_countedBatches {entry : String × Nat} (h : entry ∈ e.countedBatches s codes) :
    0 < entry.2 :=
  Nat.pos_of_ne_zero (of_decide_eq_true (List.mem_filter.mp h).2)

/-- The batches that fix nothing add nothing. -/
theorem sumOf_countedBatches (e : Engine) (s : Snapshot) (codes : List String) :
    sumOf (e.countedBatches s codes) = fixedBy (e.acceptedBatches s codes) := by
  unfold countedBatches
  induction e.acceptedBatches s codes with
  | nil => rfl
  | cons first batches ih =>
    have hfixed : fixedBy (first :: batches) = first.result.fixed + fixedBy batches := rfl
    rw [hfixed, ← ih, List.map_cons, List.filter_cons]
    split
    · rfl
    · rename_i hzero
      have hzero : first.result.fixed = 0 := by simpa using hzero
      rw [hzero, Nat.zero_add]

/-- A run sets the counts of its accepted batches that fix something, one after the other. -/
theorem fixed_foldl_fixCode (codes : List String) (r : FixReport) :
    (codes.foldl e.fixCode r).fixed = setCounts r.fixed (e.countedBatches r.snapshot codes) := by
  induction codes generalizing r with
  | nil => rfl
  | cons code codes ih =>
    rw [List.foldl_cons, ih, countedBatches, countedBatches, acceptedBatches]
    cases hbatch : e.fixAll r.snapshot (Workspace.ofSnapshot r.snapshot).host code with
    | error cause => rw [fixCode_of_error hbatch]
    | ok b =>
      rw [fixCode_of_ok hbatch, FixReport.snapshot_accept (snapshot_of_fixed_eq_zero hbatch)]
      dsimp only
      rw [List.map_cons, List.filter_cons, accept]
      by_cases hzero : b.fixed = 0
      · simp [hzero]
      · simp [hzero, setCounts]

/-! ## The total -/

theorem fixed_fixCodes (e : Engine) (s : Snapshot) (codes : List String) :
    (e.fixCodes s codes).fixed = setCounts [] (e.countedBatches s codes) :=
  fixed_foldl_fixCode codes (.start s)

/-- The total is never too large, and too small exactly where a batch that fixed something is followed by
another one for the same code. -/
theorem total_fixCodes (e : Engine) (s : Snapshot) (codes : List String) :
    (e.fixCodes s codes).total ≤ fixedBy (e.acceptedBatches s codes) ∧
      ((e.fixCodes s codes).total = fixedBy (e.acceptedBatches s codes) ↔
        ((e.countedBatches s codes).map Prod.fst).Nodup) := by
  have htotal : (e.fixCodes s codes).total = sumOf (e.fixCodes s codes).fixed := rfl
  have hpos : ∀ entry ∈ e.countedBatches s codes, 0 < entry.2 := fun _ => pos_of_mem_countedBatches
  have hstart : ∀ entry ∈ e.countedBatches s codes, countOf entry.1 [] = 0 := fun _ _ => rfl
  have hnil : sumOf [] = 0 := rfl
  obtain ⟨hle, hiff⟩ := sumOf_setCounts hpos (show SortedCounts [] from .nil)
  rw [hnil, Nat.zero_add, sumOf_countedBatches, ← fixed_fixCodes, ← htotal] at hle hiff
  exact ⟨hle, hiff.trans (and_iff_left hstart)⟩

/-- The report of a run is that of its accepted batches. Each code counts with its last batch that
fixes something, and the total is never more than what all batches fixed. It is that sum exactly when
no code has two batches that fix something. -/
theorem total_fixCodes_eq_sum_iff (e : Engine) (s : Snapshot) (codes : List String) :
    e.Runs s codes ((e.acceptedBatches s codes).map AcceptedBatch.result) (e.fixCodes s codes).failures
        (e.fixCodes s codes).snapshot ∧
      (∀ code, countOf code (e.fixCodes s codes).fixed =
        countOf code (e.countedBatches s codes).reverse) ∧
      (e.fixCodes s codes).total ≤ fixedBy (e.acceptedBatches s codes) ∧
      ((e.fixCodes s codes).total = fixedBy (e.acceptedBatches s codes) ↔
        ((e.countedBatches s codes).map Prod.fst).Nodup) := by
  obtain ⟨results, failures, hruns, hfailures⟩ := runs_foldl_fixCode e codes (.start s)
  have hresults : results = (e.acceptedBatches s codes).map AcceptedBatch.result := hruns.results_eq
  have hreport : (e.fixCodes s codes).failures = failures := hfailures
  refine ⟨?_, fun code => ?_, total_fixCodes e s codes⟩
  · rw [hreport, ← hresults]
    exact hruns
  · rw [fixed_fixCodes, countOf_setCounts, List.append_nil]

/-- Codes that are all different count in full. -/
theorem total_fixCodes_of_nodup (e : Engine) (s : Snapshot) {codes : List String}
    (h : codes.Nodup) : (e.fixCodes s codes).total = fixedBy (e.acceptedBatches s codes) := by
  have hsublist : ((e.countedBatches s codes).map Prod.fst).Sublist codes := by
    refine List.Sublist.trans ?_ (acceptedBatches_sublist e s codes)
    have hfilter : (e.countedBatches s codes).Sublist
        ((e.acceptedBatches s codes).map fun batch => (batch.code, batch.result.fixed)) :=
      List.filter_sublist
    have hcodes := hfilter.map Prod.fst
    rwa [List.map_map] at hcodes
  exact (total_fixCodes e s codes).2.mpr (h.sublist hsublist)

theorem nodup_eraseDups (codes : List String) : codes.eraseDups.Nodup := by
  induction hlength : codes.length using Nat.strongRecOn generalizing codes with
  | ind length ih =>
    cases codes with
    | nil => exact .nil
    | cons code codes =>
      rw [List.eraseDups_cons, List.nodup_cons]
      refine ⟨fun hmem => ?_, ih _ ?_ _ rfl⟩
      · simpa using List.mem_eraseDups.mp hmem
      · rw [← hlength, List.length_cons]
        exact Nat.lt_succ_of_le (List.length_filter_le _ _)

/-- A run over all codes that can be fixed counts all that its batches fix. -/
theorem total_fixEverything (e : Engine) (s : Snapshot) : (e.fixEverything s).total =
    fixedBy (e.acceptedBatches s e.fixableCodes) :=
  total_fixCodes_of_nodup e s (nodup_eraseDups _)

/-- A field with the simple name of the type that the new call names. -/
def shadowedSource : String :=
  "class C \x7b float Single; string M(float x) \x7b return x.ToString(); \x7d \x7d"

/-- The code is given twice, and its second batch fixes the call that the first one made. Both fix one
diagnostic, and one is counted. -/
theorem total_fixCodes_shadowed :
    ∃ w, Workspace.ofSources [("A.cs", shadowedSource)] = .ok w ∧
      ((ofConfig .default).fixCodes w.snapshot ["NG1001", "NG1001"]).total = 1 ∧
      fixedBy ((ofConfig .default).acceptedBatches w.snapshot ["NG1001", "NG1001"]) = 2 := by
  have hrun : (Workspace.ofSources [("A.cs", shadowedSource)]).toOption.any (fun w =>
      decide (((ofConfig .default).fixCodes w.snapshot ["NG1001", "NG1001"]).total = 1 ∧
        fixedBy ((ofConfig .default).acceptedBatches w.snapshot ["NG1001", "NG1001"]) = 2)) =
          true := by
    decide +kernel
  obtain ⟨w, hw, hcounts⟩ := Workspace.exists_of_any hrun
  exact ⟨w, hw, of_decide_eq_true hcounts⟩

end Engine

end SharpLint
