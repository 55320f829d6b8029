import SharpLint.Tree.Node

/-!
# Replacement of a node as a change of text

`Replaced r above offset t n t'` says that the tree `t`, which starts at `offset` below the frames
`above`, holds the node `n`, and that `t'` is `t` with `r` in the place of `n`. Everything about one
replacement is an induction on it: the text around `n` stays, and where `r` has text of its own, the
text of `t'` ends behind the place of `n`.

    n.replaceWith r = t'                                                   (Replaced.replaceWith_eq)
    t.fullChars = pre ++ n.tree.fullChars ++ post ∧
      t'.fullChars = pre ++ r.fullChars ++ post                            (Replaced.exists_split)
    r.text ≠ "" → n.offset < (t'.spanAt offset).stop                       (Replaced.lt_stop)
-/

namespace SharpLint

/-! ## Lists of trees -/

namespace Tree

@[simp] theorem fullChars_token (t : Token) : (Tree.token t).fullChars = t.fullChars := by
  simp [fullChars, tokens]

theorem fullChars_node (k : NodeKind) (cs : List Tree) :
    (Tree.node k cs).fullChars = (tokensOf cs).flatMap Token.fullChars := by
  simp [fullChars, tokens]

/-- The text of a node, cut at one of its children. -/
theorem fullChars_node_append (k : NodeKind) (left : List Tree) (c : Tree) (right : List Tree) :
    (Tree.node k (left ++ c :: right)).fullChars =
      (tokensOf left).flatMap Token.fullChars ++ c.fullChars
        ++ (tokensOf right).flatMap Token.fullChars := by
  rw [fullChars_node, tokensOf_append, tokensOf, fullChars]
  simp

@[simp] theorem widthOf_append (as bs : List Tree) :
    widthOf (as ++ bs) = widthOf as + widthOf bs := by
  simp [widthOf_eq_byteLength]

@[simp] theorem lastTokenOf?_append (as bs : List Tree) :
    lastTokenOf? (as ++ bs) = (lastTokenOf? bs).or (lastTokenOf? as) := by
  induction as with
  | nil => simp [lastTokenOf?]
  | cons a as ih => simp [lastTokenOf?, ih, Option.or_assoc]

mutual

/-- A last token is not wider than its tree. -/
theorem fullWidth_le_of_lastToken? : {t : Tree} → {tok : Token} → t.lastToken? = some tok →
    tok.fullWidth ≤ t.width
  | .token t, tok, h => by
    simp only [lastToken?, Option.some.injEq] at h
    simp [width, h]
  | .node _ cs, tok, h => by
    rw [lastToken?] at h
    rw [width]
    exact fullWidth_le_of_lastTokenOf? h

theorem fullWidth_le_of_lastTokenOf? : {cs : List Tree} → {tok : Token} →
    lastTokenOf? cs = some tok → tok.fullWidth ≤ widthOf cs
  | [], tok, h => by simp [lastTokenOf?] at h
  | c :: cs, tok, h => by
    rw [lastTokenOf?] at h
    rw [widthOf]
    cases hs : lastTokenOf? cs with
    | none =>
      rw [hs, Option.none_or] at h
      have := fullWidth_le_of_lastToken? h
      omega
    | some tok' =>
      rw [hs, Option.some_or, Option.some.injEq] at h
      have := fullWidth_le_of_lastTokenOf? hs
      rw [h] at this
      omega

end

mutual

/-- Without a last token there is no text. -/
theorem width_eq_zero_of_lastToken? : {t : Tree} → t.lastToken? = none → t.width = 0
  | .token t, h => by simp [lastToken?] at h
  | .node _ cs, h => by
    rw [lastToken?] at h
    rw [width]
    exact widthOf_eq_zero_of_lastTokenOf? h

theorem widthOf_eq_zero_of_lastTokenOf? : {cs : List Tree} → lastTokenOf? cs = none →
    widthOf cs = 0
  | [], _ => rfl
  | c :: cs, h => by
    rw [lastTokenOf?, Option.or_eq_none_iff] at h
    rw [widthOf, width_eq_zero_of_lastToken? h.2, widthOf_eq_zero_of_lastTokenOf? h.1]

end

theorem trailing_le_fullWidth (t : Token) : Trivia.widths t.trailing ≤ t.fullWidth := by
  unfold Token.fullWidth
  omega

/-- Number of bytes before the trivia that trail the last token. -/
def textEnd (t : Tree) : Nat := t.width - Trivia.widths t.trailing

theorem spanAt_stop (t : Tree) (offset : Nat) :
    offset + t.textEnd ≤ (t.spanAt offset).stop := by
  have hw : Trivia.widths t.trailing ≤ t.width := by
    unfold trailing
    cases h : t.lastToken? with
    | none => simp [Trivia.widths]
    | some tok =>
      have h1 := fullWidth_le_of_lastToken? h
      have h2 := trailing_le_fullWidth tok
      simp only [Option.map_some, Option.getD_some]
      omega
  unfold spanAt textEnd
  simp only
  omega

/-- A node ends where the last of its children with a token ends, or behind it. -/
theorem textEnd_le_node (k : NodeKind) (left : List Tree) (c : Tree) (right : List Tree)
    (hc : 0 < c.textEnd) :
    widthOf left + c.textEnd ≤ (Tree.node k (left ++ c :: right)).textEnd := by
  have hlast : (Tree.node k (left ++ c :: right)).lastToken? =
      ((lastTokenOf? right).or c.lastToken?).or (lastTokenOf? left) := by
    simp [lastToken?, lastTokenOf?]
  have hwidth : (Tree.node k (left ++ c :: right)).width =
      widthOf left + (c.width + widthOf right) := by
    simp [width, widthOf]
  unfold textEnd trailing at hc ⊢
  rw [hlast, hwidth]
  cases hr : lastTokenOf? right with
  | some tok =>
    have h1 := fullWidth_le_of_lastTokenOf? hr
    have h2 := trailing_le_fullWidth tok
    simp only [Option.some_or, Option.map_some, Option.getD_some]
    omega
  | none =>
    rw [Option.none_or]
    cases hl : c.lastToken? with
    | some tok =>
      rw [hl] at hc
      simp only [Option.some_or, Option.map_some, Option.getD_some] at hc ⊢
      omega
    | none =>
      -- a tree without tokens has no text to end
      rw [width_eq_zero_of_lastToken? hl] at hc
      omega

/-- A tree with text of its own ends behind its start. -/
theorem textEnd_pos_of_text {t : Tree} (h : t.text ≠ "") : 0 < t.textEnd := by
  apply Nat.pos_of_ne_zero
  intro h0
  apply h
  have hspan : (t.spanAt 0).stop = (t.spanAt 0).start := by
    unfold textEnd at h0
    unfold spanAt
    simp only [Nat.zero_add]
    omega
  have hempty : sliceBytes? (t.spanAt 0).start (t.spanAt 0).start t.fullChars = none ∨
      sliceBytes? (t.spanAt 0).start (t.spanAt 0).start t.fullChars = some [] := by
    unfold sliceBytes?
    cases splitAtByte? (t.spanAt 0).start t.fullChars with
    | none => exact Or.inl rfl
    | some ab =>
      right
      obtain ⟨a, b⟩ := ab
      have hb : splitAtByte? 0 b = some ([], b) := splitAtByte?_append [] b
      simp [hb]
  unfold text
  simp only [hspan]
  rcases hempty with h | h <;> rw [h] <;> rfl

end Tree

/-! ## One replacement -/

open SharpLint.Tree

/-- The tree at `offset` below `above` holds the node, and the second tree has `r` in its place. -/
inductive Replaced (r : Tree) : List Frame → Nat → Tree → Node → Tree → Prop
  | here {above : List Frame} {offset : Nat} (k : NodeKind) (cs : List Tree) :
      Replaced r above offset (.node k cs) ⟨k, cs, offset, above⟩ r
  | child {above : List Frame} {offset : Nat} {k : NodeKind} (left : List Tree) {c c' : Tree}
      (right : List Tree) {n : Node} :
      Replaced r (⟨k, left ++ c :: right, offset, left.length⟩ :: above) (offset + widthOf left)
        c n c' →
      Replaced r above offset (.node k (left ++ c :: right)) n (.node k (left ++ c' :: right))

namespace Replaced

variable {r t t' : Tree} {above : List Frame} {offset : Nat} {n : Node}

/-- The frames above the replaced node end with those above the tree. -/
theorem above_suffix (h : Replaced r above offset t n t') : above <:+ n.above := by
  induction h with
  | here k cs => exact List.suffix_refl _
  | child left right h ih => exact (List.suffix_cons _ _).trans ih

/-- The frames above are filled from the inside out. -/
theorem replaceWith_foldl (h : Replaced r above offset t n t') :
    n.replaceWith r =
      above.foldl (fun inner f => .node f.kind (f.children.set f.index inner)) t' := by
  induction h with
  | here k cs => rfl
  | child left right _ ih =>
    rw [ih, List.foldl_cons]
    simp

theorem replaceWith_eq (h : Replaced r [] offset t n t') : n.replaceWith r = t' :=
  h.replaceWith_foldl

/-- The text around the node stays, and its length is the distance to the node. -/
theorem exists_split (h : Replaced r above offset t n t') :
    ∃ pre post, t.fullChars = pre ++ n.tree.fullChars ++ post ∧
      t'.fullChars = pre ++ r.fullChars ++ post ∧ n.offset = offset + byteLength pre := by
  induction h with
  | here k cs => exact ⟨[], [], by simp [Node.tree], by simp, by simp⟩
  | @child above offset k left c c' right n _ ih =>
    obtain ⟨pre, post, h1, h2, h3⟩ := ih
    refine ⟨(tokensOf left).flatMap Token.fullChars ++ pre,
      post ++ (tokensOf right).flatMap Token.fullChars, ?_, ?_, ?_⟩
    · rw [fullChars_node_append, h1]
      simp
    · rw [fullChars_node_append, h2]
      simp
    · rw [h3, widthOf_eq_byteLength, byteLength_append]
      omega

theorem offset_le (h : Replaced r above offset t n t') : offset ≤ n.offset := by
  obtain ⟨pre, post, -, -, h3⟩ := h.exists_split
  omega

theorem stop_le (h : Replaced r above offset t n t') :
    n.offset + n.tree.width ≤ offset + t.width := by
  obtain ⟨pre, post, h1, -, h3⟩ := h.exists_split
  have hw := width_eq_byteLength t
  have hn := width_eq_byteLength n.tree
  rw [h1, byteLength_append, byteLength_append] at hw
  omega

theorem offset_le_new (h : Replaced r above offset t n t') : n.offset ≤ offset + t'.width := by
  obtain ⟨pre, post, -, h2, h3⟩ := h.exists_split
  have hw := width_eq_byteLength t'
  rw [h2, byteLength_append, byteLength_append] at hw
  omega

theorem lt_textEnd (h : Replaced r above offset t n t') (hr : r.text ≠ "") :
    n.offset < offset + t'.textEnd := by
  induction h with
  | here k cs =>
    have := textEnd_pos_of_text hr
    simp only
    omega
  | @child above offset k left c c' right n h ih =>
    have hle := h.offset_le
    have := textEnd_le_node k left c' right (by omega)
    omega

/-- With text in it, the new tree ends behind the place of the replaced node. -/
theorem lt_stop (h : Replaced r above offset t n t') (hr : r.text ≠ "") :
    n.offset < (t'.spanAt offset).stop := by
  have h1 := h.lt_textEnd hr
  have h2 := spanAt_stop t' offset
  omega

end Replaced

end SharpLint
