/-!
# Spans

A half-open range of byte offsets. `overlaps` is symmetric; an empty span overlaps one that holds
it strictly inside, and an empty span at the same place.
-/

namespace SharpLint

/-- The byte offsets from `start` up to, not including, `stop`. -/
structure Span where
  start : Nat
  stop : Nat
  deriving DecidableEq, Inhabited

namespace Span

def ofLength (start length : Nat) : Span := ⟨start, start + length⟩

/-- Number of bytes. -/
def length (s : Span) : Nat := s.stop - s.start

/-- No byte. -/
def isEmpty (s : Span) : Bool := s.start == s.stop

/-- `t` lies within `s`. -/
def contains (s t : Span) : Bool := decide (s.start ≤ t.start) && decide (t.stop ≤ s.stop)

/-- Some byte in common. An empty span overlaps where it lies strictly inside the other or equals
it. -/
def overlaps (s t : Span) : Bool :=
  if s.isEmpty || t.isEmpty then
    (decide (t.start < s.start) && decide (s.start < t.stop))
      || (decide (s.start < t.start) && decide (t.start < s.stop))
      || (s.start == t.start && s.stop == t.stop)
  else decide (s.start < t.stop) && decide (t.start < s.stop)

/-- By start, then by end. -/
def order (s t : Span) : Ordering := (compare s.start t.start).then (compare s.stop t.stop)

def render (s : Span) : String := toString s.start ++ ".." ++ toString s.stop

/-! ## Lemmas -/

theorem contains_iff (s t : Span) : s.contains t = true ↔ s.start ≤ t.start ∧ t.stop ≤ s.stop := by
  simp [contains]

theorem overlaps_comm (s t : Span) : s.overlaps t = t.overlaps s := by
  have hs : (s.start == t.start) = (t.start == s.start) := Bool.beq_comm
  have ht : (s.stop == t.stop) = (t.stop == s.stop) := Bool.beq_comm
  simp only [overlaps, Bool.or_comm s.isEmpty, hs, ht]
  split
  · rw [Bool.or_comm (decide (t.start < s.start) && _)]
  · rw [Bool.and_comm]

/-- Spans with bytes overlap when each starts before the other one ends. -/
theorem overlaps_iff {s t : Span} (hs : s.start < s.stop) (ht : t.start < t.stop) :
    s.overlaps t = true ↔ s.start < t.stop ∧ t.start < s.stop := by
  have hempty : (s.isEmpty || t.isEmpty) = false := by
    simp only [isEmpty, Bool.or_eq_false_iff, beq_eq_false_iff_ne]
    omega
  simp [overlaps, hempty]

end Span

end SharpLint
