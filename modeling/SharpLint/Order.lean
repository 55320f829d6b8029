/-!
# Orders and stable sorting

`stableSort` sorts by insertion and keeps elements that compare equal in their order.
-/

namespace SharpLint

/-- Lexicographic order of lists, a beginning before what it begins. -/
def compareLists {α : Type} (compare : α → α → Ordering) : List α → List α → Ordering
  | [], [] => .eq
  | [], _ :: _ => .lt
  | _ :: _, [] => .gt
  | a :: as, b :: bs => (compare a b).then (compareLists compare as bs)

/-- Order of texts by code points, which is also the order of their bytes. -/
def compareText (a b : String) : Ordering :=
  compareLists (fun c d => compare c.toNat d.toNat) a.toList b.toList

/-- `x` in a sorted list, before the first element that is not less. -/
def insertSorted {α : Type} (order : α → α → Ordering) (x : α) : List α → List α
  | [] => [x]
  | y :: ys => if order x y == .gt then y :: insertSorted order x ys else x :: y :: ys

/-- The elements in order; equal ones stay as they stand. -/
def stableSort {α : Type} (order : α → α → Ordering) (xs : List α) : List α :=
  xs.foldr (insertSorted order) []

/-! ## Lemmas -/

section

variable {α : Type} (order : α → α → Ordering)

theorem insertSorted_perm (x : α) (ys : List α) : (insertSorted order x ys).Perm (x :: ys) := by
  induction ys with
  | nil => exact .refl _
  | cons y ys ih =>
    rw [insertSorted]
    split
    · exact (ih.cons y).trans (.swap x y ys)
    · exact .refl _

theorem stableSort_perm (xs : List α) : (stableSort order xs).Perm xs := by
  induction xs with
  | nil => exact .refl _
  | cons x xs ih => exact (insertSorted_perm order x _).trans (ih.cons x)

variable {order}

/-- An insertion keeps elements related, where the order goes by a transitive relation. -/
theorem insertSorted_pairwise {R : α → α → Prop} {x : α} {ys : List α}
    (hgt : ∀ y ∈ ys, order x y = .gt → R y x) (hle : ∀ y ∈ ys, order x y ≠ .gt → R x y)
    (htrans : ∀ x y z, R x y → R y z → R x z) (h : ys.Pairwise R) :
    (insertSorted order x ys).Pairwise R := by
  induction ys with
  | nil => exact List.pairwise_singleton _ x
  | cons y ys ih =>
    rw [List.pairwise_cons] at h
    rw [List.forall_mem_cons] at hgt hle
    rw [insertSorted]
    split
    · rename_i hxy
      rw [List.pairwise_cons]
      refine ⟨fun z hz => ?_, ih hgt.2 hle.2 h.2⟩
      rcases List.mem_cons.1 ((insertSorted_perm order x ys).mem_iff.1 hz) with rfl | hz
      · exact hgt.1 (by simpa using hxy)
      · exact h.1 z hz
    · rename_i hxy
      have hxy : R x y := hle.1 (by simpa using hxy)
      rw [List.pairwise_cons, List.pairwise_cons]
      refine ⟨fun z hz => ?_, h⟩
      rcases List.mem_cons.1 hz with rfl | hz
      · exact hxy
      · exact htrans x y z hxy (h.1 z hz)

theorem pairwise_stableSort {R : α → α → Prop} (hgt : ∀ x y, order x y = .gt → R y x)
    (hle : ∀ x y, order x y ≠ .gt → R x y) (htrans : ∀ x y z, R x y → R y z → R x z)
    (xs : List α) : (stableSort order xs).Pairwise R := by
  induction xs with
  | nil => exact .nil
  | cons x xs ih => exact insertSorted_pairwise (fun y _ => hgt x y) (fun y _ => hle x y) htrans ih

open Std in
/-- What stands in the order of some keys is sorted by the order, and by the keys where that is
equal. -/
theorem pairwise_stableSort_key [TransCmp order] (key : α → Nat) {xs : List α}
    (h : xs.Pairwise fun x y => key x < key y) : (stableSort order xs).Pairwise fun x y =>
      compareLex order (fun x y => compare (key x) (key y)) x y = .lt := by
  have hkey : TransCmp fun x y : α => compare (key x) (key y) :=
    { eq_swap := OrientedCmp.eq_swap, isLE_trans := TransCmp.isLE_trans }
  induction h with
  | nil => exact .nil
  | @cons x xs hx _ ih =>
    show (insertSorted order x (stableSort order xs)).Pairwise _
    refine insertSorted_pairwise (fun y _ hgt => ?_) (fun y hy hle => ?_)
      (fun x y z => TransCmp.lt_trans) ih
    · have hlt : order y x = .lt := OrientedCmp.lt_of_gt hgt
      simp [compareLex, hlt]
    · have hxy : compare (key x) (key y) = .lt :=
        Nat.compare_eq_lt.2 (hx y ((stableSort_perm order xs).mem_iff.1 hy))
      cases hcmp : order x y with
      | lt => simp [compareLex, hcmp]
      | eq => simp [compareLex, hcmp, hxy]
      | gt => exact absurd hcmp hle

end

end SharpLint
