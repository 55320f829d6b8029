import Mathlib.Data.List.DropRight
import Mathlib.Data.List.Induction
import Mathlib.Data.List.TakeWhile
import SharpLint.Proofs.Tree.Slice
import SharpLint.Text.Lines

/-!
# Lines of a text

A line is known by the breaks in front of it, and a place in it by the characters in front of it:

    IsLine cs n before line after         line n of cs, between what precedes and what follows it
    lineText? cs n = some (dropLineEnd line)                          (IsLine.lineText?_eq)
    positionAt cs (byteLength (before ++ front)) = ⟨n, front.length + 1⟩
                                          where the line starts with front    (IsLine.positionAt_eq)

What stands in front of a place on a line is what precedes the line, and a part of it
(`IsLine.of_split`).

The line of an offset is searched for among the starts of lines. Whether the search finds the offset or
the place where it would be put, the line is the last that starts up to it (`positionAt_eq_takeWhile`,
`line_positionAt_iff`).
-/

namespace SharpLint

/-! ## Starts of lines -/

theorem startsAfter_append (offset : Nat) (as bs : List Char) :
    startsAfter offset (as ++ bs) =
      startsAfter offset as ++ startsAfter (offset + byteLength as) bs := by
  induction as generalizing offset with
  | nil => rfl
  | cons a as ih =>
    have hoffset : offset + byteLength (a :: as) = offset + a.utf8Size + byteLength as := by
      rw [byteLength_cons, Nat.add_assoc]
    rw [List.cons_append, startsAfter, startsAfter, ih, hoffset]
    split
    · rfl
    · rfl

theorem length_startsAfter (offset : Nat) (cs : List Char) :
    (startsAfter offset cs).length = cs.count '\n' := by
  induction cs generalizing offset with
  | nil => rfl
  | cons c cs ih =>
    rw [startsAfter]
    split
    · rename_i hc
      rw [List.length_cons, ih, hc, List.count_cons_self]
    · rename_i hc
      rw [ih, List.count_cons_of_ne hc]

theorem mem_startsAfter {offset start : Nat} {cs : List Char} (h : start ∈ startsAfter offset cs) :
    offset < start ∧ start ≤ offset + byteLength cs := by
  induction cs generalizing offset with
  | nil => cases h
  | cons c cs ih =>
    have hpos := c.utf8Size_pos
    rw [byteLength_cons]
    rw [startsAfter] at h
    split at h
    · rcases List.mem_cons.mp h with rfl | h
      · omega
      · have := ih h
        omega
    · have := ih h
      omega

theorem startsAfter_of_notMem (offset : Nat) {cs : List Char} (h : '\n' ∉ cs) :
    startsAfter offset cs = [] := by
  rw [← List.length_eq_zero_iff, length_startsAfter, List.count_eq_zero.mpr h]

theorem lineStarts_append (as bs : List Char) :
    lineStarts (as ++ bs) = lineStarts as ++ startsAfter (byteLength as) bs := by
  rw [lineStarts, startsAfter_append, Nat.zero_add]
  rfl

theorem length_lineStarts (cs : List Char) : (lineStarts cs).length = cs.count '\n' + 1 := by
  rw [lineStarts, List.length_cons, length_startsAfter]

/-! ## Search of a line -/

/-- Lines start one after the other. -/
theorem lineStarts_pairwise (cs : List Char) : (lineStarts cs).Pairwise (· < ·) := by
  suffices hafter : ∀ offset, (startsAfter offset cs).Pairwise (· < ·) from
    List.pairwise_cons.mpr ⟨fun start h => (mem_startsAfter h).1, hafter 0⟩
  induction cs with
  | nil => exact fun _ => .nil
  | cons c cs ih =>
    intro offset
    rw [startsAfter]
    split
    · exact List.pairwise_cons.mpr ⟨fun start h => (mem_startsAfter h).1, ih _⟩
    · exact ih _

/-- In increasing numbers all of which are greater, there are none up to a bound. -/
theorem takeWhile_le_eq_nil {xs : List Nat} {bound : Nat} (h : ∀ x ∈ xs, bound < x) :
    xs.takeWhile (· ≤ bound) = [] := by
  cases xs with
  | nil => rfl
  | cons x xs =>
    have hlt := h x List.mem_cons_self
    rw [List.takeWhile_cons, if_neg (by simpa using hlt)]

/-- A search among increasing numbers counts those up to the number sought: it finds the last of them,
if that is the number, and else the place behind it. -/
theorem searchFrom_cases (i x : Nat) {xs : List Nat} (h : xs.Pairwise (· < ·)) :
    (∃ k, searchFrom i x xs = .ok k ∧ x ∈ xs ∧ k + 1 = i + (xs.takeWhile (· ≤ x)).length) ∨
      searchFrom i x xs = .error (i + (xs.takeWhile (· ≤ x)).length) ∧ x ∉ xs := by
  induction xs generalizing i with
  | nil => exact .inr ⟨rfl, List.not_mem_nil⟩
  | cons y ys ih =>
    obtain ⟨hy, hys⟩ := List.pairwise_cons.mp h
    rw [searchFrom]
    rcases Nat.lt_trichotomy y x with hlt | rfl | hgt
    · have hlength : i + ((y :: ys).takeWhile (· ≤ x)).length =
          i + 1 + (ys.takeWhile (· ≤ x)).length := by
        rw [List.takeWhile_cons, if_pos (decide_eq_true (Nat.le_of_lt hlt)), List.length_cons]
        omega
      rw [Nat.compare_eq_lt.mpr hlt, hlength, List.mem_cons, or_iff_right (Nat.ne_of_gt hlt)]
      exact ih (i + 1) hys
    · rw [Nat.compare_eq_eq.mpr rfl, List.takeWhile_cons, if_pos (decide_eq_true (Nat.le_refl y)),
        takeWhile_le_eq_nil hy]
      exact .inl ⟨i, rfl, List.mem_cons_self, rfl⟩
    · have hgreater : ∀ z ∈ y :: ys, x < z :=
        List.forall_mem_cons.mpr ⟨hgt, fun z hz => Nat.lt_trans hgt (hy z hz)⟩
      rw [Nat.compare_eq_gt.mpr hgt, takeWhile_le_eq_nil hgreater]
      exact .inr ⟨rfl, fun hx => Nat.lt_irrefl x (hgreater x hx)⟩

/-- The index of a line counts the lines that start up to the offset. -/
theorem lineIndex_succ (cs : List Char) (offset : Nat) :
    lineIndex (lineStarts cs) offset + 1 = ((lineStarts cs).takeWhile (· ≤ offset)).length := by
  have hpos : 0 < ((lineStarts cs).takeWhile (· ≤ offset)).length := by
    rw [lineStarts, List.takeWhile_cons, if_pos (decide_eq_true (Nat.zero_le offset))]
    exact Nat.succ_pos _
  unfold lineIndex
  rcases searchFrom_cases 0 offset (lineStarts_pairwise cs) with ⟨k, hk, -, hlength⟩ | ⟨hk, -⟩
  · rw [hk, hlength, Nat.zero_add]
  · rw [hk]
    dsimp only
    omega

/-- The position by the starts of lines up to the offset. -/
theorem positionAt_eq_takeWhile (cs : List Char) (offset : Nat) :
    positionAt cs offset =
      let starts := (lineStarts cs).takeWhile (· ≤ offset)
      let start := starts.getLastD 0
      let stop := min offset (byteLength cs)
      ⟨starts.length, ((sliceBytes? start stop cs).map List.length).getD (stop - start) + 1⟩ := by
  have hindex := lineIndex_succ cs offset
  have hstart : (lineStarts cs)[lineIndex (lineStarts cs) offset]?.getD 0 =
      ((lineStarts cs).takeWhile (· ≤ offset)).getLastD 0 := by
    have hfront : (lineStarts cs).takeWhile (· ≤ offset) <+: lineStarts cs := List.takeWhile_prefix _
    have hlt : lineIndex (lineStarts cs) offset < ((lineStarts cs).takeWhile (· ≤ offset)).length :=
      Nat.lt_of_succ_le (Nat.le_of_eq hindex)
    rw [List.getLastD_eq_getLast?, List.getLast?_eq_getElem?, ← hindex, Nat.add_sub_cancel,
      List.getElem?_eq_getElem hlt, List.prefix_iff_getElem?.mp hfront _ hlt]
  simp only [positionAt, hindex, hstart]
  cases sliceBytes? _ _ cs with
  | none => rfl
  | some line => rfl
/-- In increasing numbers, those up to a bound are the ones in front. -/
theorem getElem?_le_iff {starts : List Nat} (hsorted : starts.Pairwise (· < ·)) {bound i start : Nat}
    (h : starts[i]? = some start) :
    start ≤ bound ↔ i < (starts.takeWhile (· ≤ bound)).length := by
  induction starts generalizing i with
  | nil => cases h
  | cons first starts ih =>
    obtain ⟨hfirst, hsorted⟩ := List.pairwise_cons.mp hsorted
    by_cases hle : first ≤ bound
    · rw [List.takeWhile_cons, if_pos (decide_eq_true hle), List.length_cons]
      cases i with
      | zero =>
        obtain rfl := Option.some.inj h
        exact ⟨fun _ => Nat.succ_pos _, fun _ => hle⟩
      | succ i => exact (ih hsorted h).trans Nat.succ_lt_succ_iff.symm
    · have hstart : first ≤ start := by
        rcases List.mem_cons.mp (List.mem_of_getElem? h) with rfl | hmem
        · exact Nat.le_refl _
        · exact Nat.le_of_lt (hfirst start hmem)
      rw [List.takeWhile_cons, if_neg (by simpa using hle), List.length_nil]
      omega

/-- The line of an offset is the one that starts up to it, while the next starts behind it. -/
theorem line_positionAt_iff (cs : List Char) (offset k : Nat) :
    (positionAt cs offset).line = k + 1 ↔
      (∃ start, (lineStarts cs)[k]? = some start ∧ start ≤ offset) ∧
        ∀ next, (lineStarts cs)[k + 1]? = some next → offset < next := by
  have hsearch {i start : Nat} (h : (lineStarts cs)[i]? = some start) :
      start ≤ offset ↔ i < (positionAt cs offset).line := by
    rw [positionAt_eq_takeWhile]
    exact getElem?_le_iff (lineStarts_pairwise cs) h
  have hlength : (positionAt cs offset).line ≤ (lineStarts cs).length := by
    rw [positionAt_eq_takeWhile]
    exact (List.takeWhile_sublist _).length_le
  constructor
  · intro hline
    have hk : k < (lineStarts cs).length := by omega
    have hstart := List.getElem?_eq_getElem hk
    refine ⟨⟨_, hstart, (hsearch hstart).mpr (by omega)⟩, fun next hnext => ?_⟩
    have := hsearch hnext
    omega
  · rintro ⟨⟨start, hstart, hle⟩, hnext⟩
    have hlt := (hsearch hstart).mp hle
    by_cases hk : k + 1 < (lineStarts cs).length
    · have hget := List.getElem?_eq_getElem hk
      have := hsearch hget
      have := hnext _ hget
      omega
    · omega

/-- The lines that start up to a place are those of the text in front of it. -/
theorem takeWhile_lineStarts (as bs : List Char) :
    (lineStarts (as ++ bs)).takeWhile (· ≤ byteLength as) = lineStarts as := by
  have hfront : ∀ start ∈ lineStarts as, decide (start ≤ byteLength as) = true := by
    intro start h
    rcases List.mem_cons.mp h with rfl | h
    · exact decide_eq_true (Nat.zero_le _)
    · have := (mem_startsAfter h).2
      exact decide_eq_true (by omega)
  have hbehind : (startsAfter (byteLength as) bs).takeWhile (· ≤ byteLength as) = [] := by
    rw [List.takeWhile_eq_nil_iff]
    intro hpos h
    have hle : (startsAfter (byteLength as) bs)[0] ≤ byteLength as := of_decide_eq_true h
    have := (mem_startsAfter (List.getElem_mem hpos)).1
    omega
  rw [lineStarts_append, List.takeWhile_append_of_pos hfront, hbehind, List.append_nil]

theorem positionAt_line (as bs : List Char) :
    (positionAt (as ++ bs) (byteLength as)).line = as.count '\n' + 1 := by
  simp only [positionAt_eq_takeWhile, takeWhile_lineStarts, length_lineStarts]

/-! ## Lines -/

/-- Line `n` of a text, with what precedes and what follows it. -/
structure IsLine (cs : List Char) (n : Nat) (before line after : List Char) : Prop where
  split : cs = before ++ (line ++ after)
  number : n = before.count '\n' + 1
  starts : before = [] ∨ ∃ front, before = front ++ ['\n']
  noBreak : '\n' ∉ line
  ends : after = [] ∨ ∃ rest, after = '\n' :: rest

/-- There is one line more than there are breaks. -/
theorem exists_isLine {cs : List Char} {k : Nat} (h : k ≤ cs.count '\n') :
    ∃ before line after, IsLine cs (k + 1) before line after := by
  induction cs generalizing k with
  | nil =>
    obtain rfl := Nat.le_zero.mp h
    exact ⟨[], [], [], rfl, rfl, .inl rfl, List.not_mem_nil, .inl rfl⟩
  | cons c cs ih =>
    by_cases hc : c = '\n'
    · obtain rfl := hc
      cases k with
      | zero => exact ⟨[], [], '\n' :: cs, rfl, rfl, .inl rfl, List.not_mem_nil, .inr ⟨cs, rfl⟩⟩
      | succ k =>
        rw [List.count_cons_self] at h
        obtain ⟨before, line, after, hline⟩ := ih (Nat.le_of_succ_le_succ h)
        refine ⟨'\n' :: before, line, after, congrArg _ hline.split, ?_, .inr ?_, hline.noBreak,
          hline.ends⟩
        · rw [List.count_cons_self, ← hline.number]
        · rcases hline.starts with rfl | ⟨front, rfl⟩
          · exact ⟨[], rfl⟩
          · exact ⟨'\n' :: front, rfl⟩
    · rw [List.count_cons_of_ne hc] at h
      obtain ⟨before, line, after, hline⟩ := ih h
      -- in front of the first line nothing can stand, so that it gets one character more
      rcases hline.starts with rfl | ⟨front, rfl⟩
      · refine ⟨[], c :: line, after, congrArg _ hline.split, hline.number, .inl rfl, ?_, hline.ends⟩
        exact List.not_mem_cons_of_ne_of_not_mem (Ne.symm hc) hline.noBreak
      · refine ⟨c :: (front ++ ['\n']), line, after, congrArg _ hline.split, ?_,
          .inr ⟨c :: front, rfl⟩, hline.noBreak, hline.ends⟩
        rw [List.count_cons_of_ne hc, ← hline.number]

namespace IsLine

variable {cs before line after : List Char} {n : Nat}

theorem lineStarts_eq (h : IsLine cs n before line after) :
    lineStarts cs = lineStarts before ++ startsAfter (byteLength (before ++ line)) after := by
  rw [h.split, lineStarts_append, startsAfter_append, startsAfter_of_notMem _ h.noBreak,
    byteLength_append]
  rfl

/-- A line starts where what precedes it ends. -/
theorem getLast?_lineStarts (h : IsLine cs n before line after) :
    (lineStarts before).getLast? = some (byteLength before) := by
  rcases h.starts with rfl | ⟨front, rfl⟩
  · rfl
  · rw [lineStarts_append, byteLength_append]
    exact List.getLast?_concat

theorem getElem?_lineStarts (h : IsLine cs n before line after) :
    (lineStarts cs)[n - 1]? = some (byteLength before) := by
  have hlength := length_lineStarts before
  rw [← h.number] at hlength
  have hlast := h.getLast?_lineStarts
  rw [List.getLast?_eq_getElem?, hlength] at hlast
  have hlt : n - 1 < (lineStarts before).length := by
    have := h.number
    omega
  rw [h.lineStarts_eq, List.getElem?_append_left hlt, hlast]

end IsLine

/-! ## Texts of lines -/

theorem dropLineEnd_eq (cs : List Char) :
    dropLineEnd cs = cs.rdropWhile fun c => c == '\r' || c == '\n' := rfl

theorem dropLineEnd_break (cs : List Char) : dropLineEnd (cs ++ ['\n']) = dropLineEnd cs :=
  List.rdropWhile_concat_pos _ _ _ rfl

/-- Only line ends are removed. -/
theorem exists_dropLineEnd {as : List Char} (h : ∀ c ∈ as.getLast?, c ≠ '\r' ∧ c ≠ '\n')
    (bs : List Char) : ∃ rest, dropLineEnd (as ++ bs) = as ++ rest := by
  induction bs using List.reverseRecOn with
  | nil =>
    refine ⟨[], ?_⟩
    rw [List.append_nil, dropLineEnd_eq, List.rdropWhile_eq_self_iff]
    intro hne hend
    have hlast := h _ (List.getLast?_eq_some_getLast hne)
    simp only [Bool.or_eq_true, beq_iff_eq] at hend
    exact hend.elim hlast.1 hlast.2
  | append_singleton bs b ih =>
    rw [← List.append_assoc, dropLineEnd_eq, List.rdropWhile_concat]
    split
    · exact ih
    · exact ⟨bs ++ [b], by rw [List.append_assoc]⟩

namespace IsLine

variable {cs before line after : List Char} {n : Nat}

/-- Text of a line. -/
theorem lineText?_eq (h : IsLine cs n before line after) :
    lineText? cs n = some (dropLineEnd line) := by
  have hstart := h.getElem?_lineStarts
  have hlength := length_lineStarts before
  rw [← h.number] at hlength
  have hnext : (lineStarts cs)[n]? = (startsAfter (byteLength (before ++ line)) after)[0]? := by
    rw [h.lineStarts_eq, List.getElem?_append_right (Nat.le_of_eq hlength), hlength, Nat.sub_self]
  obtain ⟨k, rfl⟩ : ∃ k, n = k + 1 := ⟨_, h.number⟩
  rw [Nat.add_sub_cancel] at hstart
  simp only [lineText?, hstart, hnext]
  rcases h.ends with rfl | ⟨rest, rfl⟩
  · have hslice := sliceBytes?_append before line []
    rw [List.append_assoc, ← h.split] at hslice
    have hstop : byteLength cs = byteLength before + byteLength line := by
      rw [h.split, List.append_nil, byteLength_append]
    rw [startsAfter, List.getElem?_nil, Option.getD_none, hstop, hslice, Option.map_some]
  · have hslice := sliceBytes?_append before (line ++ ['\n']) rest
    have hcs : before ++ (line ++ ['\n']) ++ rest = cs := by
      rw [h.split, List.append_assoc, List.append_assoc]
      rfl
    have hstop : byteLength (before ++ line) + '\n'.utf8Size =
        byteLength before + byteLength (line ++ ['\n']) := by
      simp only [byteLength_append, byteLength_cons, byteLength_nil]
      omega
    rw [startsAfter, if_pos rfl, List.getElem?_cons_zero, Option.getD_some, hstop, ← hcs, hslice,
      Option.map_some, dropLineEnd_break]

/-- Line and column of a place on a line. -/
theorem positionAt_eq {front back : List Char} (h : IsLine cs n before (front ++ back) after) :
    positionAt cs (byteLength (before ++ front)) = ⟨n, front.length + 1⟩ := by
  have hfront : '\n' ∉ front := fun hmem => h.noBreak (List.mem_append_left back hmem)
  have hcs : cs = before ++ front ++ (back ++ after) := by
    rw [h.split, List.append_assoc, List.append_assoc]
  have hstarts : lineStarts (before ++ front) = lineStarts before := by
    rw [lineStarts_append, startsAfter_of_notMem _ hfront, List.append_nil]
  have hstart : (lineStarts before).getLastD 0 = byteLength before := by
    rw [List.getLastD_eq_getLast?, h.getLast?_lineStarts]
    rfl
  have hstop : min (byteLength (before ++ front)) (byteLength cs) =
      byteLength before + byteLength front := by
    rw [hcs, byteLength_append _ (back ++ after), byteLength_append]
    omega
  have hslice := sliceBytes?_append before front (back ++ after)
  simp only [positionAt_eq_takeWhile, hstop]
  rw [hcs, takeWhile_lineStarts, hstarts, hstart, hslice, length_lineStarts, ← h.number]
  rfl

/-- What stands in front of a place on a line is what precedes the line, and a part of it. -/
theorem of_split (h : IsLine cs n before line after) {front back : List Char}
    (hcs : cs = front ++ back) (hn : front.count '\n' + 1 = n) :
    ∃ left right, front = before ++ left ∧ line = left ++ right ∧ back = right ++ after := by
  have hcounts : front.count '\n' = before.count '\n' := by
    have := h.number
    omega
  obtain ⟨a, hbefore, hback⟩ | ⟨left, rfl, hline⟩ :=
    List.append_eq_append_iff.mp (hcs.symm.trans h.split)
  · -- what precedes the line ends with a break, so that the place is not inside it
    obtain rfl | ⟨a, last, rfl⟩ := List.eq_nil_or_concat' a
    · exact ⟨[], line, by rw [hbefore, List.append_nil, List.append_nil], rfl, hback⟩
    · have hbreak : last = '\n' := by
        rcases h.starts with hnil | ⟨p, hp⟩
        · rw [hbefore, ← List.append_assoc] at hnil
          cases (List.append_eq_nil_iff.mp hnil).2
        · rw [hbefore, ← List.append_assoc] at hp
          exact List.singleton_inj.mp (List.append_inj' hp rfl).2
      rw [hbefore, hbreak, List.count_append, List.count_append, List.count_singleton_self] at hcounts
      omega
  · have hleft : '\n' ∉ left := by
      rw [List.count_append] at hcounts
      exact List.count_eq_zero.mp (by omega)
    obtain ⟨a, rfl, hafter⟩ | ⟨right, hright, hback⟩ := List.append_eq_append_iff.mp hline
    · cases a with
      | nil => exact ⟨line, [], by rw [List.append_nil], by rw [List.append_nil], hafter.symm⟩
      | cons first a =>
        have hbreak : first = '\n' := by
          rcases h.ends with hnil | ⟨rest, hrest⟩
          · rw [hnil] at hafter
            cases hafter
          · rw [hrest] at hafter
            exact (List.cons.inj hafter).1.symm
        exact absurd (List.mem_append_right line (hbreak ▸ List.mem_cons_self)) hleft
    · exact ⟨left, right, rfl, hright, hback⟩

end IsLine

end SharpLint
