import SharpLint.Document.Id

/-!
# Documents in order

The order of document ids is a total order of their parts: two ids are equal in it exactly when they
name one document (`order_eq_eq_iff`). So a list that is filled by `upsert` is sorted, has at most
one entry for each document (`upsert_sorted`), and a document is found by any spelling of its id
(`SortedBy.find?_eq`). Entries for different documents make one list, in whatever order they are put
in (`foldl_upsert_perm`, `SortedBy.eq_of_perm`).
-/

namespace SharpLint

open Std

/-! ## Orders -/

theorem compareLists_eq_compareLex {α : Type} (cmp : α → α → Ordering) :
    compareLists cmp = List.compareLex cmp := by
  funext as bs
  induction as generalizing bs with
  | nil =>
    cases bs with
    | nil => rfl
    | cons b bs => rfl
  | cons a as ih =>
    cases bs with
    | nil => rfl
    | cons b bs => rw [compareLists, ih, List.compareLex_cons_cons]

instance {α : Type} (cmp : α → α → Ordering) [TransCmp cmp] : TransCmp (compareLists cmp) := by
  rw [compareLists_eq_compareLex]
  infer_instance

instance {α : Type} (cmp : α → α → Ordering) [LawfulEqCmp cmp] :
    LawfulEqCmp (compareLists cmp) := by
  rw [compareLists_eq_compareLex]
  infer_instance

/-- An order of keys orders what has the keys. -/
theorem transCmp_on {α β : Type} (cmp : β → β → Ordering) [TransCmp cmp] (key : α → β) :
    TransCmp fun a b => cmp (key a) (key b) where
  eq_swap := OrientedCmp.eq_swap
  isLE_trans := TransCmp.isLE_trans

instance transCmp_char : TransCmp fun c d : Char => compare c.toNat d.toNat := transCmp_on compare Char.toNat

instance lawfulEqCmp_char : LawfulEqCmp fun c d : Char => compare c.toNat d.toNat where
  compare_self := ReflCmp.compare_self
  eq_of_compare h := Char.toNat_inj.mp (LawfulEqCmp.eq_of_compare h)

instance : TransCmp compareText :=
  transCmp_on (compareLists fun c d : Char => compare c.toNat d.toNat) String.toList

instance : LawfulEqCmp compareText where
  compare_self {a} := by
    unfold compareText
    exact ReflCmp.compare_self
  eq_of_compare {a b} h := by
    unfold compareText at h
    exact String.toList_inj.mp (LawfulEqCmp.eq_of_compare h)

namespace PathPart

/-- The text of a name. -/
def nameText : PathPart → String
  | .name text => text
  | _ => ""

/-- Parts are ordered by rank, and then by the text of the name. -/
theorem order_eq (a b : PathPart) :
    a.order b = (compare a.rank b.rank).then (compareText a.nameText b.nameText) := by
  cases a <;> cases b <;> rfl

theorem order_eq_compareLex : order = compareLex (fun a b => compare a.rank b.rank)
    (fun a b => compareText a.nameText b.nameText) := by
  funext a b
  exact order_eq a b

instance : TransCmp PathPart.order := by
  have hrank : TransCmp fun a b : PathPart => compare a.rank b.rank := transCmp_on compare rank
  have htext : TransCmp fun a b : PathPart => compareText a.nameText b.nameText :=
    transCmp_on compareText nameText
  rw [order_eq_compareLex]
  infer_instance

theorem eq_of_order {a b : PathPart} (h : a.order b = .eq) : a = b := by
  rw [order_eq, Ordering.then_eq_eq] at h
  have hrank : a.rank = b.rank := LawfulEqCmp.eq_of_compare h.1
  have htext : a.nameText = b.nameText := LawfulEqCmp.eq_of_compare h.2
  cases a <;> cases b <;> simp_all [rank, nameText]

instance : LawfulEqCmp PathPart.order where
  compare_self {a} := by
    have hrank : compare a.rank a.rank = .eq := ReflCmp.compare_self
    have htext : compareText a.nameText a.nameText = .eq := ReflCmp.compare_self
    rw [order_eq, hrank, htext]
    rfl
  eq_of_compare := eq_of_order

end PathPart

namespace DocumentId

instance : TransCmp DocumentId.order := transCmp_on (compareLists PathPart.order) parts

theorem same_iff {a b : DocumentId} : a.same b = true ↔ a.parts = b.parts := beq_iff_eq

theorem same_comm (a b : DocumentId) : a.same b = b.same a := by
  rw [Bool.eq_iff_iff, same_iff, same_iff, eq_comm]

/-- Ids compare equal exactly when they name one document. -/
theorem order_eq_eq_iff {a b : DocumentId} : a.order b = .eq ↔ a.same b = true := by
  rw [same_iff]
  constructor
  · intro h
    exact LawfulEqCmp.eq_of_compare h
  · intro h
    rw [order, h]
    exact ReflCmp.compare_self

theorem same_eq_false_of_lt {a b : DocumentId} (h : a.order b = .lt) : a.same b = false := by
  rw [Bool.eq_false_iff]
  intro hsame
  rw [order_eq_eq_iff.mpr hsame] at h
  cases h

end DocumentId

/-! ## Sorted lists -/

section

variable {α : Type} {key : α → DocumentId}

/-- In the order of the ids, no two of which name one document. -/
def SortedBy (key : α → DocumentId) (xs : List α) : Prop :=
  xs.Pairwise fun x y => (key x).order (key y) = .lt

instance (xs : List α) : Decidable (SortedBy key xs) :=
  inferInstanceAs (Decidable (xs.Pairwise fun x y => (key x).order (key y) = .lt))

/-- Other entries with the same ids are as well sorted. -/
theorem SortedBy.map {xs : List α} {f : α → α} (hf : ∀ x, key (f x) = key x) (h : SortedBy key xs) :
    SortedBy key (xs.map f) := by
  refine List.pairwise_map.mpr (h.imp fun {x y} hlt => ?_)
  rw [hf, hf]
  exact hlt

variable {fresh : α} {merge : α → α}

/-- What is in a list after an insertion: the new entry, an old one, or an old one merged. -/
theorem upsert_cases {x : α} {xs : List α} (h : x ∈ upsert key fresh merge xs) :
    x = fresh ∨ x ∈ xs ∨ ∃ y ∈ xs, (key fresh).order (key y) = .eq ∧ x = merge y := by
  induction xs with
  | nil => exact .inl (List.mem_singleton.mp h)
  | cons y ys ih =>
    rw [upsert] at h
    split at h
    · exact (List.mem_cons.mp h).imp_right .inl
    · rename_i heq
      rcases List.mem_cons.mp h with rfl | h
      · exact .inr (.inr ⟨y, List.mem_cons_self, heq, rfl⟩)
      · exact .inr (.inl (List.mem_cons_of_mem y h))
    · rcases List.mem_cons.mp h with rfl | h
      · exact .inr (.inl List.mem_cons_self)
      · obtain h | h | ⟨z, hz, heq, hx⟩ := ih h
        · exact .inl h
        · exact .inr (.inl (List.mem_cons_of_mem y h))
        · exact .inr (.inr ⟨z, List.mem_cons_of_mem y hz, heq, hx⟩)

/-- An entry with a property is kept by an insertion, if merging keeps the property. -/
theorem exists_mem_upsert {P : α → Prop} (hmerge : ∀ y, P y → P (merge y)) {xs : List α}
    (h : ∃ x ∈ xs, P x) : ∃ x ∈ upsert key fresh merge xs, P x := by
  induction xs with
  | nil =>
    obtain ⟨x, hx, -⟩ := h
    cases hx
  | cons y ys ih =>
    obtain ⟨x, hx, hP⟩ := h
    rw [upsert]
    split
    · exact ⟨x, List.mem_cons_of_mem _ hx, hP⟩
    · rcases List.mem_cons.mp hx with rfl | hx
      · exact ⟨merge x, List.mem_cons_self, hmerge x hP⟩
      · exact ⟨x, List.mem_cons_of_mem _ hx, hP⟩
    · rcases List.mem_cons.mp hx with rfl | hx
      · exact ⟨x, List.mem_cons_self, hP⟩
      · obtain ⟨z, hz, hP⟩ := ih ⟨x, hx, hP⟩
        exact ⟨z, List.mem_cons_of_mem _ hz, hP⟩

/-- The new entry is in the list, or merged into one of its document. -/
theorem exists_mem_upsert_fresh {P : α → Prop} (hfresh : P fresh)
    (hmerge : ∀ y, (key fresh).order (key y) = .eq → P (merge y)) (xs : List α) :
    ∃ x ∈ upsert key fresh merge xs, P x := by
  induction xs with
  | nil => exact ⟨fresh, List.mem_singleton_self fresh, hfresh⟩
  | cons y ys ih =>
    rw [upsert]
    split
    · exact ⟨fresh, List.mem_cons_self, hfresh⟩
    · rename_i heq
      exact ⟨merge y, List.mem_cons_self, hmerge y heq⟩
    · obtain ⟨z, hz, hP⟩ := ih
      exact ⟨z, List.mem_cons_of_mem _ hz, hP⟩

/-- Insertion keeps a list sorted, if merging keeps the document. -/
theorem upsert_sorted {xs : List α}
    (hmerge : ∀ y, (key fresh).order (key y) = .eq → (key (merge y)).order (key y) = .eq)
    (h : SortedBy key xs) : SortedBy key (upsert key fresh merge xs) := by
  unfold SortedBy at h ⊢
  induction xs with
  | nil => exact List.pairwise_singleton _ fresh
  | cons y ys ih =>
    obtain ⟨hy, hys⟩ := List.pairwise_cons.mp h
    rw [upsert]
    split
    · rename_i hlt
      refine List.pairwise_cons.mpr ⟨fun z hz => ?_, h⟩
      rcases List.mem_cons.mp hz with rfl | hz
      · exact hlt
      · exact TransCmp.lt_trans hlt (hy z hz)
    · rename_i heq
      refine List.pairwise_cons.mpr ⟨fun z hz => ?_, hys⟩
      rw [TransCmp.congr_left (hmerge y heq)]
      exact hy z hz
    · rename_i hgt
      have hyf : (key y).order (key fresh) = .lt := OrientedCmp.lt_of_gt hgt
      refine List.pairwise_cons.mpr ⟨fun z hz => ?_, ih hys⟩
      obtain rfl | hz | ⟨w, hw, heq, rfl⟩ := upsert_cases hz
      · exact hyf
      · exact hy z hz
      · rw [TransCmp.congr_right (hmerge w heq)]
        exact hy w hw

/-- In a sorted list an entry is found by any id of its document. -/
theorem SortedBy.find?_eq {xs : List α} (h : SortedBy key xs) {x : α} (hx : x ∈ xs)
    {id : DocumentId} (hid : (key x).same id = true) :
    xs.find? (fun y => (key y).same id) = some x := by
  unfold SortedBy at h
  induction xs with
  | nil => cases hx
  | cons y ys ih =>
    obtain ⟨hy, hys⟩ := List.pairwise_cons.mp h
    rcases List.mem_cons.mp hx with rfl | hx
    · exact List.find?_cons_of_pos hid
    · rw [List.find?_cons_of_neg, ih hys hx]
      intro hyid
      have hsame : (key y).same (key x) = true :=
        DocumentId.same_iff.mpr ((DocumentId.same_iff.mp hyid).trans (DocumentId.same_iff.mp hid).symm)
      rw [DocumentId.same_eq_false_of_lt (hy x hx)] at hsame
      cases hsame

/-- Sorted lists with the same entries are the same. -/
theorem SortedBy.eq_of_perm {xs ys : List α} (hxs : SortedBy key xs) (hys : SortedBy key ys)
    (h : xs.Perm ys) : xs = ys := by
  refine h.eq_of_pairwise (fun x y _ _ hxy hyx => ?_) hxs hys
  rw [OrientedCmp.gt_of_lt hyx] at hxy
  cases hxy

/-! ## Many insertions -/

/-- A new entry that meets none of its document is put somewhere into the list. -/
theorem upsert_perm {xs : List α} (h : ∀ x ∈ xs, (key fresh).same (key x) = false) :
    (upsert key fresh merge xs).Perm (fresh :: xs) := by
  induction xs with
  | nil => exact .refl _
  | cons x xs ih =>
    obtain ⟨hx, hxs⟩ := List.forall_mem_cons.mp h
    rw [upsert]
    split
    · exact .refl _
    · rename_i heq
      rw [DocumentId.order_eq_eq_iff.mp heq] at hx
      cases hx
    · exact ((ih hxs).cons x).trans (.swap fresh x xs)

variable {mergeAll : α → α → α}

/-- Entries for different documents, none of which the list has, are put into it. -/
theorem foldl_upsert_perm {xs ys : List α} (hys : ys.Pairwise fun x y => (key x).same (key y) = false)
    (h : ∀ x ∈ xs, ∀ y ∈ ys, (key x).same (key y) = false) :
    (ys.foldl (fun xs y => upsert key y (mergeAll y) xs) xs).Perm (xs ++ ys) := by
  induction ys generalizing xs with
  | nil =>
    rw [List.append_nil]
    exact .refl _
  | cons y ys ih =>
    obtain ⟨hy, hys⟩ := List.pairwise_cons.mp hys
    have hput : (upsert key y (mergeAll y) xs).Perm (y :: xs) := by
      refine upsert_perm fun x hx => ?_
      rw [DocumentId.same_comm]
      exact h x hx y List.mem_cons_self
    have hlater : ∀ x ∈ upsert key y (mergeAll y) xs, ∀ z ∈ ys, (key x).same (key z) = false := by
      intro x hx z hz
      rcases List.mem_cons.mp (hput.mem_iff.mp hx) with rfl | hx
      · exact hy z hz
      · exact h x hx z (List.mem_cons_of_mem y hz)
    exact ((ih hys hlater).trans (hput.append_right ys)).trans List.perm_middle.symm

end

end SharpLint
