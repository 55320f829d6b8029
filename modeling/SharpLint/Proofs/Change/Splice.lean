import SharpLint.Text.Bytes
import SharpLint.Text.Span

/-!
# Simultaneous replacement in a text

`splice changes offset cs` is the text `cs`, which starts at `offset`, with the span of every change
replaced by the text of the change. Each character is looked at on its own: it is dropped when it
lies in one of the spans, and the text of a change comes in where its span starts. The result does
not depend on the order of the changes, nor on how often one of them is given (`splice_congr`).

Changes can be made one at a time from the right, since a change leaves alone what stands before it:

    splice (c :: changes) 0 (pre ++ old ++ post) = splice changes 0 (pre ++ c.text ++ post)
                                                                                  (splice_cons)
-/

namespace SharpLint

/-- New text for a span of the old text. -/
structure TextChange where
  span : Span
  text : List Char
  deriving DecidableEq

/-- The text that comes in at an offset. -/
def insertedAt (changes : List TextChange) (offset : Nat) : List Char :=
  ((changes.find? (·.span.start == offset)).map TextChange.text).getD []

/-- The offset lies in the span of some change. -/
def isReplaced (changes : List TextChange) (offset : Nat) : Bool :=
  changes.any fun c => decide (c.span.start ≤ offset) && decide (offset < c.span.stop)

/-- The text from `offset` on with the spans of all changes replaced at once. -/
def splice (changes : List TextChange) : Nat → List Char → List Char
  | _, [] => []
  | offset, c :: cs =>
    insertedAt changes offset ++ (if isReplaced changes offset then [] else [c])
      ++ splice changes (offset + c.utf8Size) cs

/-! ## Lemmas -/

theorem splice_append (changes : List TextChange) (offset : Nat) (as bs : List Char) :
    splice changes offset (as ++ bs) =
      splice changes offset as ++ splice changes (offset + byteLength as) bs := by
  induction as generalizing offset with
  | nil => simp [splice]
  | cons a as ih => simp [splice, ih, Nat.add_assoc]

theorem insertedAt_of_lt {changes : List TextChange} {offset : Nat}
    (h : ∀ c ∈ changes, c.span.start < offset) : insertedAt changes offset = [] := by
  have hnone : changes.find? (·.span.start == offset) = none := by
    rw [List.find?_eq_none]
    intro c hc
    have := h c hc
    simp only [beq_iff_eq]
    omega
  simp [insertedAt, hnone]

/-- Behind the last change the text stays as it is. -/
theorem splice_of_le {changes : List TextChange} {offset : Nat} (cs : List Char)
    (hlt : ∀ c ∈ changes, c.span.start < c.span.stop) (h : ∀ c ∈ changes, c.span.stop ≤ offset) :
    splice changes offset cs = cs := by
  induction cs generalizing offset with
  | nil => rfl
  | cons a as ih =>
    have hin : insertedAt changes offset = [] := insertedAt_of_lt fun c hc => by
      have := hlt c hc
      have := h c hc
      omega
    have hout : isReplaced changes offset = false := by
      simp only [isReplaced, List.any_eq_false, Bool.and_eq_true, decide_eq_true_eq]
      intro c hc
      have := h c hc
      omega
    rw [splice, hin, hout, ih fun c hc => Nat.le_trans (h c hc) (Nat.le_add_right _ _)]
    simp

/-- In front of a change its presence makes no difference. -/
theorem splice_cons_of_le {c : TextChange} {changes : List TextChange} {offset : Nat} (cs : List Char)
    (h : offset + byteLength cs ≤ c.span.start) :
    splice (c :: changes) offset cs = splice changes offset cs := by
  induction cs generalizing offset with
  | nil => rfl
  | cons a as ih =>
    have ha := a.utf8Size_pos
    rw [byteLength_cons] at h
    have hin : insertedAt (c :: changes) offset = insertedAt changes offset := by
      unfold insertedAt
      rw [List.find?_cons_of_neg]
      simp only [beq_iff_eq]
      omega
    have hout : isReplaced (c :: changes) offset = isReplaced changes offset := by
      simp only [isReplaced, List.any_cons, Bool.or_eq_right_iff_imp, Bool.and_eq_true,
        decide_eq_true_eq]
      omega
    rw [splice, splice, hin, hout, ih (by omega)]

/-- Inside a span all characters are dropped, behind its start nothing comes in. -/
theorem splice_inside {c : TextChange} {changes : List TextChange} {offset : Nat} (cs : List Char)
    (hstart : c.span.start < offset) (hstop : offset + byteLength cs ≤ c.span.stop)
    (hbefore : ∀ d ∈ changes, d.span.start < c.span.start) :
    splice (c :: changes) offset cs = [] := by
  induction cs generalizing offset with
  | nil => rfl
  | cons a as ih =>
    have ha := a.utf8Size_pos
    rw [byteLength_cons] at hstop
    have hin : insertedAt (c :: changes) offset = [] := insertedAt_of_lt fun d hd => by
      rcases List.mem_cons.1 hd with rfl | hd
      · exact hstart
      · exact Nat.lt_trans (hbefore d hd) hstart
    have hout : isReplaced (c :: changes) offset = true := by
      simp only [isReplaced, List.any_cons, Bool.or_eq_true, Bool.and_eq_true, decide_eq_true_eq]
      left
      omega
    rw [splice, hin, hout, ih (by omega) (by omega)]
    rfl

/-- The last change made first: the others then see its text as old text. -/
theorem splice_cons {c : TextChange} {changes : List TextChange} (pre old post : List Char)
    (hstart : c.span.start = byteLength pre) (hstop : c.span.stop = byteLength pre + byteLength old)
    (hold : old ≠ []) (hlt : ∀ d ∈ changes, d.span.start < d.span.stop)
    (hbefore : ∀ d ∈ changes, d.span.stop ≤ c.span.start) :
    splice (c :: changes) 0 (pre ++ old ++ post) = splice changes 0 (pre ++ c.text ++ post) := by
  obtain ⟨a, as, rfl⟩ := List.exists_cons_of_ne_nil hold
  have ha := a.utf8Size_pos
  have hpre : splice (c :: changes) 0 pre = splice changes 0 pre :=
    splice_cons_of_le pre (by omega)
  have hnew : splice changes (byteLength pre) (c.text ++ post) = c.text ++ post :=
    splice_of_le _ hlt fun d hd => by
      have := hbefore d hd
      omega
  have hstarts : ∀ d ∈ changes, d.span.start < c.span.start := fun d hd =>
    Nat.lt_of_lt_of_le (hlt d hd) (hbefore d hd)
  have hspan : splice (c :: changes) (byteLength pre) (a :: as) = c.text := by
    have hin : insertedAt (c :: changes) (byteLength pre) = c.text := by
      unfold insertedAt
      rw [List.find?_cons_of_pos (by simp [hstart])]
      rfl
    have hout : isReplaced (c :: changes) (byteLength pre) = true := by
      simp only [isReplaced, List.any_cons, Bool.or_eq_true, Bool.and_eq_true, decide_eq_true_eq]
      left
      rw [byteLength_cons] at hstop
      omega
    rw [splice, hin, hout, splice_inside as (by omega) (by rw [byteLength_cons] at hstop; omega)
      hstarts]
    simp
  have hpost : splice (c :: changes) (byteLength pre + byteLength (a :: as)) post = post :=
    splice_of_le _
      (fun d hd => by
        rcases List.mem_cons.1 hd with rfl | hd
        · rw [byteLength_cons] at hstop
          omega
        · exact hlt d hd)
      (fun d hd => by
        rcases List.mem_cons.1 hd with rfl | hd
        · omega
        · have := hbefore d hd
          omega)
  rw [List.append_assoc, splice_append, splice_append, List.append_assoc, splice_append, hpre]
  simp only [Nat.zero_add]
  rw [hspan, hpost, hnew]

/-- Only which changes there are matters, as long as no two of them start at the same place. -/
theorem splice_congr {cs ds : List TextChange} (hmem : ∀ c, c ∈ cs ↔ c ∈ ds)
    (hinj : ∀ c ∈ cs, ∀ d ∈ cs, c.span.start = d.span.start → c = d) (offset : Nat)
    (text : List Char) : splice cs offset text = splice ds offset text := by
  have hin : ∀ o, insertedAt cs o = insertedAt ds o := by
    intro o
    unfold insertedAt
    congr 2
    cases h : cs.find? (·.span.start == o) with
    | none =>
      symm
      rw [List.find?_eq_none] at h ⊢
      exact fun d hd => h d ((hmem d).2 hd)
    | some c =>
      have hc := List.mem_of_find?_eq_some h
      have hco := List.find?_some h
      cases h' : ds.find? (·.span.start == o) with
      | none => exact absurd hco (List.find?_eq_none.1 h' c ((hmem c).1 hc))
      | some d =>
        have hd := (hmem d).2 (List.mem_of_find?_eq_some h')
        have hdo := List.find?_some h'
        simp only [beq_iff_eq] at hco hdo
        rw [hinj c hc d hd (by omega)]
  have hout : ∀ o, isReplaced cs o = isReplaced ds o := by
    intro o
    rw [Bool.eq_iff_iff]
    simp only [isReplaced, List.any_eq_true, hmem]
  induction text generalizing offset with
  | nil => rfl
  | cons a as ih => rw [splice, splice, hin, hout, ih]

end SharpLint
