import SharpLint.Lexeme.Piece

/-!
# What a reading covers

A reading goes from a cursor `c` to a cursor `c'` of one text and yields pieces. It never yields
less than the text between the two, and when it yields as many bytes, it yields that text
(`Piece.Covers`):

    c'.offset ≤ c.offset + byteLength (printed ps)
    c'.offset = c.offset + byteLength (printed ps)  →  c.rest = printed ps ++ c'.rest

Both hold for one token, carry over from two readings to the one after the other
(`Covers.trans`), and survive a step back to a place in front of `c'` (`Covers.back`), which is what
happens at the end of a hole.
-/

namespace SharpLint

/-! ## Places in a text -/

namespace Cursor

/-- The cursor is a place in the text `cs`. -/
structure In (cs : List Char) (c : Cursor) : Prop where
  split : c.before.reverse ++ c.rest = cs
  offset : c.offset = byteLength c.before.reverse

theorem in_ofChars (cs : List Char) : (ofChars cs).In cs := ⟨rfl, rfl⟩

theorem advance_eq (c : Cursor) (n : Nat) :
    c.advance n = ⟨(c.rest.take n).reverse ++ c.before, c.rest.drop n,
      c.offset + byteLength (c.rest.take n)⟩ := by
  induction n generalizing c with
  | zero => simp [advance]
  | succ n ih =>
    obtain ⟨before, rest, offset⟩ := c
    cases rest with
    | nil => simp [advance]
    | cons d ds =>
      rw [advance]
      simp [ih, Nat.add_assoc]

@[simp] theorem advance_rest (c : Cursor) (n : Nat) : (c.advance n).rest = c.rest.drop n := by
  rw [advance_eq]

@[simp] theorem advance_offset (c : Cursor) (n : Nat) :
    (c.advance n).offset = c.offset + byteLength (c.rest.take n) := by
  rw [advance_eq]

theorem advance_advance (c : Cursor) (m n : Nat) :
    (c.advance m).advance n = c.advance (m + n) := by
  simp only [advance_eq, List.take_add, List.drop_drop, byteLength_append, List.reverse_append,
    List.append_assoc, Nat.add_assoc]

variable {cs : List Char} {c c' : Cursor}

theorem In.advance (h : c.In cs) (n : Nat) : (c.advance n).In cs := by
  rw [advance_eq]
  constructor
  · simpa using h.split
  · simp [h.offset]

theorem In.offset_add (h : c.In cs) : c.offset + byteLength c.rest = byteLength cs := by
  rw [h.offset, ← byteLength_append, h.split]

theorem In.splitAtByte? (h : c.In cs) :
    splitAtByte? c.offset cs = some (c.before.reverse, c.rest) := by
  rw [h.offset, ← h.split]
  exact splitAtByte?_append _ _

/-- An offset determines the place. -/
theorem In.rest_eq (h : c.In cs) (h' : c'.In cs) (hoffset : c'.offset = c.offset) :
    c'.rest = c.rest := by
  have heq := h'.splitAtByte?
  rw [hoffset, h.splitAtByte?] at heq
  exact (Prod.mk.inj (Option.some.inj heq)).2.symm

theorem In.rest_ne_nil (h : c.In cs) (hlt : c.offset < byteLength cs) : c.rest ≠ [] := by
  intro hnil
  have := h.offset_add
  simp only [hnil, byteLength_nil] at this
  omega

theorem In.rest_eq_nil (h : c.In cs) (hle : byteLength cs ≤ c.offset) : c.rest = [] := by
  have hsum := h.offset_add
  cases hrest : c.rest with
  | nil => rfl
  | cons d ds =>
    have := d.utf8Size_pos
    rw [hrest, byteLength_cons] at hsum
    omega

end Cursor

/-! ## Pieces -/

namespace Piece

/-- Characters of a piece. -/
def chars : Piece → List Char
  | .trivia t => t.text.toList
  | .token _ text _ => text.toList

/-- Characters of several pieces, in order. -/
def printed (ps : List Piece) : List Char := ps.flatMap chars

@[simp] theorem printed_nil : printed [] = [] := rfl

@[simp] theorem printed_append (ps qs : List Piece) :
    printed (ps ++ qs) = printed ps ++ printed qs :=
  List.flatMap_append

/-- A token has the text that stands at its offset, and is not the end of the text. -/
def In (cs : List Char) : Piece → Prop
  | .trivia _ => True
  | .token kind text offset =>
    kind ≠ .endOfFile ∧ sliceBytes? offset (offset + text.utf8ByteSize) cs = some text.toList

/-- The pieces read from `c` to `c'` hold at least the text between the two places. -/
structure Covers (cs : List Char) (c : Cursor) (ps : List Piece) (c' : Cursor) : Prop where
  inside : c'.In cs
  forward : c'.rest.length ≤ c.rest.length
  pieces : ∀ p ∈ ps, p.In cs
  covers : c'.offset ≤ c.offset + byteLength (printed ps)
  tight : c'.offset = c.offset + byteLength (printed ps) → c.rest = printed ps ++ c'.rest

variable {cs : List Char} {c c' c'' : Cursor} {ps qs : List Piece}

theorem Covers.refl (hc : c.In cs) : Covers cs c [] c :=
  ⟨hc, Nat.le_refl _, nofun, Nat.le_refl _, fun _ => rfl⟩

theorem Covers.trans (h : Covers cs c ps c') (h' : Covers cs c' qs c'') :
    Covers cs c (ps ++ qs) c'' where
  inside := h'.inside
  forward := Nat.le_trans h'.forward h.forward
  pieces p hp := (List.mem_append.mp hp).elim (h.pieces p) (h'.pieces p)
  covers := by
    have := h.covers
    have := h'.covers
    simp only [printed_append, byteLength_append]
    omega
  tight heq := by
    simp only [printed_append, byteLength_append] at heq ⊢
    have hle := h.covers
    have hle' := h'.covers
    rw [h.tight (by omega), h'.tight (by omega), List.append_assoc]

/-- Going back to a place that was passed loses nothing. -/
theorem Covers.back {b : Cursor} (h : Covers cs c ps c') (hb : b.In cs)
    (hforward : b.rest.length ≤ c.rest.length) (hle : b.offset ≤ c'.offset) :
    Covers cs c ps b where
  inside := hb
  forward := hforward
  pieces := h.pieces
  covers := Nat.le_trans hle h.covers
  tight heq := by
    have hcovers := h.covers
    have hoffset : c'.offset = b.offset := by omega
    rw [h.tight (by omega), hb.rest_eq h.inside hoffset]

theorem chars_taken (c : Cursor) (n : Nat) : (c.taken n).toList = c.rest.take n := by
  simp [Cursor.taken]

/-- A piece that is the next `n` characters. -/
theorem covers_advance (hc : c.In cs) {p : Piece} {n : Nat} (hp : p.In cs)
    (hchars : p.chars = c.rest.take n) : Covers cs c [p] (c.advance n) where
  inside := hc.advance n
  forward := by simp
  pieces q hq := by rwa [List.mem_singleton.mp hq]
  covers := by simp [printed, hchars]
  tight _ := by simp [printed, hchars]

theorem covers_trivia (hc : c.In cs) (kind : TriviaKind) (n : Nat) :
    Covers cs c (c.trivia kind n).1 (c.trivia kind n).2 :=
  covers_advance hc trivial (chars_taken c n)

theorem token_in (hc : c.In cs) {kind : TokenKind} (hk : kind ≠ .endOfFile) (n : Nat) :
    (Piece.token kind (c.taken n) c.offset).In cs := by
  refine ⟨hk, ?_⟩
  have htake : splitAtByte? (byteLength (c.rest.take n)) c.rest =
      some (c.rest.take n, c.rest.drop n) := by
    conv => lhs; rw [← List.take_append_drop n c.rest]
    simpa using splitAtByte?_append (c.rest.take n) (c.rest.drop n)
  have hlt : ¬ c.offset + byteLength (c.rest.take n) < c.offset := by omega
  simp only [sliceBytes?, hc.splitAtByte?, utf8ByteSize_eq_byteLength, chars_taken, if_neg hlt,
    Nat.add_sub_cancel_left, htake, Option.map_some]

theorem covers_token (hc : c.In cs) (kind : TokenKind) (n : Nat) (hk : kind ≠ .endOfFile) :
    Covers cs c (c.token kind n).1 (c.token kind n).2 :=
  covers_advance hc (token_in hc hk n) (chars_taken c n)

theorem covers_tokenIfAny (hc : c.In cs) (kind : TokenKind) (n : Nat) (hk : kind ≠ .endOfFile) :
    Covers cs c (c.tokenIfAny kind n).1 (c.tokenIfAny kind n).2 := by
  unfold Cursor.tokenIfAny
  split
  · exact .refl hc
  · exact covers_token hc kind n hk

@[simp] theorem tokenIfAny_snd (c : Cursor) (kind : TokenKind) (n : Nat) :
    (c.tokenIfAny kind n).2 = c.advance n := by
  unfold Cursor.tokenIfAny
  split
  · rename_i hn
    rw [hn, Cursor.advance]
  · rfl

end Piece

end SharpLint
