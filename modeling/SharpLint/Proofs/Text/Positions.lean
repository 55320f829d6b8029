import SharpLint.Proofs.Text.Lines

/-!
# Positions are counted

Where an offset falls between two characters, the search for its line finds what a scan of the text in
front of it counts:

    positionAt (front ++ back) (byteLength front) = Position.behind front        (positionAt_append)

One character more is a later position (`Position.behind_before_concat`), so that offsets between
characters are ordered as their positions are, and no two have the same position.
-/

namespace SharpLint

/-! ## Order of positions -/

namespace Position

/-- The lexicographic order: an earlier line, or the same line and an earlier column. -/
def Before (p q : Position) : Prop := p.line < q.line ∨ p.line = q.line ∧ p.column < q.column

instance (p q : Position) : Decidable (p.Before q) :=
  inferInstanceAs (Decidable (p.line < q.line ∨ p.line = q.line ∧ p.column < q.column))

theorem Before.trans {p q r : Position} (hpq : p.Before q) (hqr : q.Before r) : p.Before r := by
  unfold Before at *
  omega

theorem Before.asymm {p q : Position} (hpq : p.Before q) : ¬ q.Before p := by
  unfold Before at *
  omega

theorem Before.ne {p q : Position} (hpq : p.Before q) : p ≠ q := by
  rintro rfl
  exact hpq.asymm hpq

/-- The position behind a text: its line breaks are counted, and its characters behind the last. -/
def behind (front : List Char) : Position :=
  ⟨front.count '\n' + 1, (front.rtakeWhile (· != '\n')).length + 1⟩

/-- A line break starts the next line, and every other character takes one column. -/
theorem behind_concat (front : List Char) (c : Char) :
    behind (front ++ [c]) = if c = '\n' then ⟨(behind front).line + 1, 1⟩
      else ⟨(behind front).line, (behind front).column + 1⟩ := by
  unfold behind
  rw [List.rtakeWhile_concat, List.count_append]
  by_cases hc : c = '\n'
  · subst hc
    rfl
  · have hcount : [c].count '\n' = 0 := List.count_eq_zero.mpr (by simpa using Ne.symm hc)
    rw [if_pos (bne_iff_ne.mpr hc), if_neg hc, hcount, List.length_append]
    rfl

theorem behind_before_concat (front : List Char) (c : Char) :
    (behind front).Before (behind (front ++ [c])) := by
  rw [behind_concat]
  split
  · exact .inl (Nat.lt_succ_self _)
  · exact .inr ⟨rfl, Nat.lt_succ_self _⟩

/-- More text ends at a later position. -/
theorem behind_before_append (front : List Char) {more : List Char} (h : more ≠ []) :
    (behind front).Before (behind (front ++ more)) := by
  induction more using List.reverseRecOn with
  | nil => exact absurd rfl h
  | append_singleton more c ih =>
    rw [← List.append_assoc]
    have hlast := behind_before_concat (front ++ more) c
    by_cases hmore : more = []
    · rwa [hmore, List.append_nil] at hlast ⊢
    · exact (ih hmore).trans hlast

end Position

/-! ## Positions between characters -/

/-- On a line stands what follows the last line break in front. -/
theorem IsLine.rtakeWhile_eq {cs before front back after : List Char} {n : Nat}
    (h : IsLine cs n before (front ++ back) after) :
    (before ++ front).rtakeWhile (· != '\n') = front := by
  have hfront : ∀ c ∈ front.reverse, (c != '\n') = true := by
    intro c hc
    rw [bne_iff_ne]
    rintro rfl
    exact h.noBreak (List.mem_append_left back (List.mem_reverse.mp hc))
  have hbefore : before.reverse.takeWhile (· != '\n') = [] := by
    rcases h.starts with rfl | ⟨first, rfl⟩
    · rfl
    · rw [List.reverse_append]
      rfl
  rw [List.rtakeWhile, List.reverse_append, List.takeWhile_append_of_pos hfront, hbefore,
    List.append_nil, List.reverse_reverse]

theorem positionAt_append (front back : List Char) :
    positionAt (front ++ back) (byteLength front) = Position.behind front := by
  have hcount : front.count '\n' ≤ (front ++ back).count '\n' := by
    rw [List.count_append]
    omega
  obtain ⟨before, line, after, hline⟩ := exists_isLine hcount
  obtain ⟨left, right, hfront, rfl, -⟩ := hline.of_split rfl rfl
  rw [Position.behind, hfront, hline.rtakeWhile_eq, ← hfront, ← hline.positionAt_eq, hfront]

theorem positionAt_of_split {cs front back : List Char} {offset : Nat}
    (h : splitAtByte? offset cs = some (front, back)) :
    positionAt cs offset = Position.behind front := by
  obtain ⟨rfl, rfl⟩ := of_splitAtByte? h
  exact positionAt_append front back

/-- A later offset has more text in front of it. -/
theorem positionAt_before_of_lt {cs front back front' back' : List Char} {offset other : Nat}
    (h : splitAtByte? offset cs = some (front, back))
    (h' : splitAtByte? other cs = some (front', back')) (hlt : offset < other) :
    (positionAt cs offset).Before (positionAt cs other) := by
  rw [positionAt_of_split h, positionAt_of_split h']
  obtain ⟨hcs, rfl⟩ := of_splitAtByte? h
  obtain ⟨hcs', rfl⟩ := of_splitAtByte? h'
  obtain ⟨more, rfl, -⟩ | ⟨more, rfl, -⟩ := List.append_eq_append_iff.mp (hcs.trans hcs'.symm)
  · refine Position.behind_before_append front ?_
    rintro rfl
    rw [List.append_nil] at hlt
    exact Nat.lt_irrefl _ hlt
  · rw [byteLength_append] at hlt
    omega

/-- Between characters, the position counts what stands in front of the offset: the line breaks, and
the characters behind the last of them. Offsets between characters are ordered as their positions are,
and different ones have different positions. -/
theorem positionAt_of_boundary {cs front back : List Char} {offset : Nat}
    (h : splitAtByte? offset cs = some (front, back)) :
    positionAt cs offset =
        ⟨1 + front.count '\n', 1 + (front.rtakeWhile (· != '\n')).length⟩ ∧
      ∀ other front' back', splitAtByte? other cs = some (front', back') →
        (offset < other ↔ (positionAt cs offset).Before (positionAt cs other)) ∧
          (offset ≠ other → positionAt cs offset ≠ positionAt cs other) := by
  refine ⟨?_, fun other front' back' h' => ?_⟩
  · rw [positionAt_of_split h, Position.behind, Nat.add_comm 1, Nat.add_comm 1]
  · rcases Nat.lt_trichotomy offset other with hlt | rfl | hgt
    · have hbefore := positionAt_before_of_lt h h' hlt
      exact ⟨iff_of_true hlt hbefore, fun _ => hbefore.ne⟩
    · exact ⟨iff_of_false (Nat.lt_irrefl _) fun hbefore => hbefore.ne rfl, absurd rfl⟩
    · have hbefore := positionAt_before_of_lt h' h hgt
      exact ⟨iff_of_false (Nat.lt_asymm hgt) hbefore.asymm, fun _ => hbefore.ne.symm⟩

/-- Two offsets in a text with an empty line and with characters of more than one byte: the end of the
text, and the start of the last line. -/
theorem positionAt_of_boundary_wide :
    let cs := "é\n\n→x".toList
    splitAtByte? 8 cs = some (cs, []) ∧
      splitAtByte? 4 cs = some (['é', '\n', '\n'], ['→', 'x']) ∧
      positionAt cs 8 = ⟨3, 3⟩ ∧ positionAt cs 4 = ⟨3, 1⟩ ∧
      (positionAt cs 4).Before (positionAt cs 8) ∧ positionAt cs 4 ≠ positionAt cs 8 := by
  intro cs
  have hend : splitAtByte? 8 cs = some (cs, []) := by decide
  have hstart : splitAtByte? 4 cs = some (['é', '\n', '\n'], ['→', 'x']) := by decide
  obtain ⟨hposition, -⟩ := positionAt_of_boundary hend
  obtain ⟨hposition', hothers⟩ := positionAt_of_boundary hstart
  obtain ⟨horder, hdifferent⟩ := hothers 8 _ _ hend
  exact ⟨hend, hstart, hposition.trans (by decide), hposition'.trans (by decide),
    horder.mp (by decide), hdifferent (by decide)⟩

end SharpLint
