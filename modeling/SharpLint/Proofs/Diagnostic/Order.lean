import SharpLint.Diagnostic.Basic
import SharpLint.Document.Order

/-!
# Diagnostics in order

`stableSort` gives the elements sorted (`isLE_stableSort`), and those that compare equal stay in their
order (`filter_stableSort`). A list that is sorted stays as it is (`stableSort_of_isLE`). Diagnostics
are ordered by line, column and code, and diagnostics of all documents by the document first.
-/

namespace SharpLint

open Std

/-! ## Stable sorting -/

section

variable {α : Type} {order : α → α → Ordering}

/-- What compares less or equal to all others goes to the front. -/
theorem insertSorted_of_isLE {x : α} {ys : List α} (h : ∀ y ∈ ys, (order x y).isLE = true) :
    insertSorted order x ys = x :: ys := by
  cases ys with
  | nil => rfl
  | cons y ys =>
    have hxy := h y List.mem_cons_self
    rw [insertSorted, if_neg]
    intro hgt
    rw [beq_iff_eq.mp hgt] at hxy
    cases hxy

/-- A sorted list stays as it is. -/
theorem stableSort_of_isLE {xs : List α} (h : xs.Pairwise fun x y => (order x y).isLE = true) :
    stableSort order xs = xs := by
  induction h with
  | nil => rfl
  | @cons x xs hx _ ih =>
    show insertSorted order x (stableSort order xs) = x :: xs
    rw [ih, insertSorted_of_isLE hx]

variable [TransCmp order]

theorem isLE_stableSort (xs : List α) :
    (stableSort order xs).Pairwise fun x y => (order x y).isLE = true := by
  refine pairwise_stableSort (fun x y h => ?_) (fun x y h => ?_) (fun _ _ _ => TransCmp.isLE_trans) xs
  · have hswap : order y x = (order x y).swap := OrientedCmp.eq_swap
    rw [hswap, h]
    rfl
  · exact Ordering.isLE_iff_ne_gt.mpr h

/-- An insertion moves an element past others that do not compare equal to it. -/
theorem filter_insertSorted (x z : α) (ys : List α) :
    (insertSorted order x ys).filter (order z · == .eq) = (x :: ys).filter (order z · == .eq) := by
  induction ys with
  | nil => rfl
  | cons y ys ih =>
    rw [insertSorted]
    split
    · rename_i hgt
      -- not both are equal to `z`
      rw [List.filter_cons, ih]
      cases hx : order z x == .eq with
      | false => simp [List.filter_cons, hx]
      | true =>
        have hy : (order z y == .eq) = false := by
          rw [TransCmp.congr_left (beq_iff_eq.mp hx), beq_iff_eq.mp hgt]
          rfl
        simp [hx, hy]
    · rfl

/-- Elements that compare equal stay in their order. -/
theorem filter_stableSort (z : α) (xs : List α) :
    (stableSort order xs).filter (order z · == .eq) = xs.filter (order z · == .eq) := by
  induction xs with
  | nil => rfl
  | cons x xs ih =>
    show (insertSorted order x (stableSort order xs)).filter _ = _
    rw [filter_insertSorted, List.filter_cons, List.filter_cons, ih]

end

/-! ## Diagnostics -/

namespace Diagnostic

theorem orderInDocument_eq_compareLex : orderInDocument =
    compareLex (compareLex (fun a b => compare a.location.position.line b.location.position.line)
      fun a b => compare a.location.position.column b.location.position.column)
      fun a b => compareText a.code b.code := rfl

instance : TransCmp orderInDocument := by
  have hline : TransCmp fun a b : Diagnostic =>
      compare a.location.position.line b.location.position.line :=
    transCmp_on compare fun d : Diagnostic => d.location.position.line
  have hcolumn : TransCmp fun a b : Diagnostic =>
      compare a.location.position.column b.location.position.column :=
    transCmp_on compare fun d : Diagnostic => d.location.position.column
  have hcode : TransCmp fun a b : Diagnostic => compareText a.code b.code :=
    transCmp_on compareText code
  rw [orderInDocument_eq_compareLex]
  infer_instance

/-- Diagnostics of one document are ordered as they are in it. -/
theorem order_of_same {a b : Diagnostic} {id : DocumentId}
    (ha : a.location.document.same id = true) (hb : b.location.document.same id = true) :
    a.order b = a.orderInDocument b := by
  have heq : a.location.document.order b.location.document = .eq := by
    rw [DocumentId.order_eq_eq_iff, DocumentId.same_iff, DocumentId.same_iff.mp ha,
      DocumentId.same_iff.mp hb]
  rw [order, heq]
  rfl

/-- Diagnostics of an earlier document come first. -/
theorem order_of_lt {a b : Diagnostic} {id id' : DocumentId}
    (ha : a.location.document.same id = true) (hb : b.location.document.same id' = true)
    (h : id.order id' = .lt) : a.order b = .lt := by
  have hlt : a.location.document.order b.location.document = .lt := by
    rw [TransCmp.congr_left (DocumentId.order_eq_eq_iff.mpr ha),
      TransCmp.congr_right (DocumentId.order_eq_eq_iff.mpr hb), h]
  rw [order, hlt]
  rfl

end Diagnostic

end SharpLint
