import SharpLint.Proofs.Change.Accepted
import SharpLint.Proofs.Change.Sound

/-!
# Tokens that edits exchange

A replacement exchanges the tokens of one node for those of another tree, and leaves the tokens in
front of the node and behind it as they are (`Replaced.exists_tokens`). The edits that are applied to a
tree do that for all their targets, which stand behind one another:

    Exchanged root edits root.tokens new.tokens                       (exchanged_of_replaceTargets)

The targets are known by their places, and a place that is counted in bytes is the place of one token
only when that token has text. So the new trees are asked to start with such a token.
-/

namespace SharpLint

open SharpLint.Tree Node

/-! ## Cuts in a list of tokens -/

@[simp] theorem fullWidths_append (ts us : List Token) :
    fullWidths (ts ++ us) = fullWidths ts + fullWidths us := by
  induction ts with
  | nil => simp [fullWidths]
  | cons t ts ih =>
    rw [List.cons_append, fullWidths, ih, fullWidths]
    omega

/-- The first token, if there is one, has text. -/
def StartsWithText (ts : List Token) : Prop := ∀ t ∈ ts.head?, t.text ≠ ""

theorem startsWithText_nil : StartsWithText [] := by
  intro t ht
  cases ht

theorem startsWithText_append {ts : List Token} (hts : ts ≠ []) (h : StartsWithText ts)
    (us : List Token) : StartsWithText (ts ++ us) := by
  obtain ⟨t, ts, rfl⟩ := List.exists_cons_of_ne_nil hts
  exact h

/-- Of two cuts, the one with fewer bytes in front of it comes first, if text follows the other. -/
theorem exists_gap {front behind ts us : List Token} (h : front ++ behind = ts ++ us)
    (hle : fullWidths front ≤ fullWidths ts) (hus : StartsWithText us) :
    ∃ gap, ts = front ++ gap ∧ behind = gap ++ us := by
  rcases List.append_eq_append_iff.mp h with hgap | ⟨more, rfl, rfl⟩
  · exact hgap
  cases more with
  | nil => exact ⟨[], by simp, rfl⟩
  | cons t more =>
    have htext : t.text ≠ "" := hus t rfl
    have hbytes : t.text.utf8ByteSize ≠ 0 := fun h => htext (String.utf8ByteSize_eq_zero_iff.mp h)
    rw [fullWidths_append, fullWidths, Token.fullWidth] at hle
    omega

/-! ## One replacement -/

namespace Replaced

variable {r t t' : Tree} {above : List Frame} {offset : Nat} {n : Node}

/-- The tokens around the node stay, and its place is known by the bytes in front of it. -/
theorem exists_tokens (h : Replaced r above offset t n t') :
    ∃ front behind, t.tokens = front ++ n.tree.tokens ++ behind ∧
      t'.tokens = front ++ r.tokens ++ behind ∧ n.offset = offset + fullWidths front := by
  induction h with
  | here k cs => exact ⟨[], [], by simp [Node.tree], by simp, rfl⟩
  | @child above offset k left c c' right n _ ih =>
    obtain ⟨front, behind, hold, hnew, hoffset⟩ := ih
    refine ⟨tokensOf left ++ front, behind ++ tokensOf right, ?_, ?_, ?_⟩
    · simp [Tree.tokens, tokensOf, hold]
    · simp [Tree.tokens, tokensOf, hnew]
    · rw [hoffset, widthOf_eq_fullWidths, fullWidths_append]
      omega

/-- A node replaced by itself. -/
theorem eq_self (h : Replaced n.tree above offset t n t') : t' = t := by
  generalize hr : n.tree = r at h
  induction h with
  | here k cs => exact hr.symm
  | child left right _ ih => rw [ih hr]

end Replaced

/-! ## Edits from right to left -/

variable {root new : Tree}

/-- The edits that are applied fit, and stand at places behind one another. -/
theorem exists_fitsFromRight {document : DocumentId} {policy : OverlapPolicy} {edits accepted : List Edit}
    (hroot : root.Sound) (hfits : ∀ e ∈ edits, e.Fits root)
    (h : acceptedEdits document root edits policy = .ok accepted) :
    ∃ located : List Located, located.map Located.edit = accepted.reverse ∧
      FitsFromRight root located := by
  obtain ⟨kept, rfl, hkept, hapart, hprecedes⟩ := exists_kept h
  have hedit : ∀ l ∈ kept, l.edit.Fits root := fun l hl => hfits _ (hkept l hl).1
  have hsorted := pairwise_stop_le (fun l hl => (hkept l hl).2.start_lt (hedit l hl).target) hapart
    (hprecedes.imp Located.Precedes.start_le)
  refine ⟨kept.reverse, List.map_reverse, hroot, fun l hl => ?_, fun l hl => ?_, ?_⟩
  · exact (hkept l (List.mem_reverse.mp hl)).2
  · exact hedit l (List.mem_reverse.mp hl)
  · exact List.pairwise_reverse.mpr hsorted

theorem Edit.Stays.tree_eq {e : Edit} {n : Node} (h : e.Stays root new)
    (hn : (Node.root new).findNode? e.target e.kind = some n) :
    ∃ m, (Node.root root).findNode? e.target e.kind = some m ∧ n.place = m.place ∧
      n.tree = m.tree := by
  obtain ⟨m, m', hm, hm', hplace⟩ := h
  obtain rfl := Option.some.inj (hm'.symm.trans hn)
  refine ⟨m, hm, hplace, ?_⟩
  simp only [place, Prod.mk.injEq] at hplace
  rw [Node.tree, Node.tree, hplace.1, hplace.2.1]

/-- Edits that replace their targets by themselves leave the tree as it is. -/
theorem replaceTargets_eq_self (document : DocumentId) {edits : List Located}
    (hroot : (Node.root root).tree = root) (h : FitsFromRight root edits)
    (hself : ∀ l ∈ edits, ∀ n, (Node.root root).findNode? l.edit.target l.edit.kind = some n →
      l.edit.replacement = n.tree)
    (hok : replaceTargets document root (edits.map Located.edit) = .ok new) : new = root := by
  induction edits with
  | nil => exact (Except.ok.inj hok).symm
  | cons l edits ih =>
    rw [List.forall_mem_cons] at hself
    obtain ⟨n, hn, -, hlater, -⟩ := h.step
    have hsame : n.replaceWith l.edit.replacement = root := by
      rw [hself.1 n hn]
      exact (replaced_of_findNode? n.tree hn).eq_self.trans hroot
    rw [List.map_cons, replaceTargets_cons document hn, hsame] at hok
    rw [hsame] at hlater
    exact ih hlater hself.2 hok

/-! ## Exchanged tokens -/

/-- Some tokens stay, and behind them those of a target are exchanged for those of the replacement; and
so on, for each edit in turn. -/
inductive Exchanged (root : Tree) : List Edit → List Token → List Token → Prop
  | rest (ts : List Token) : Exchanged root [] ts ts
  | target {e : Edit} {n : Node} {edits : List Edit} {ts us : List Token} (front : List Token)
      (found : (Node.root root).findNode? e.target e.kind = some n)
      (later : Exchanged root edits ts us) :
      Exchanged root (e :: edits) (front ++ n.tree.tokens ++ ts) (front ++ e.replacement.tokens ++ us)

namespace Exchanged

variable {edits : List Edit} {ts us : List Token}

/-- One more target behind the others. -/
theorem concat (h : Exchanged root edits ts us) {e : Edit} {n : Node}
    (hn : (Node.root root).findNode? e.target e.kind = some n) (gap : List Token) :
    Exchanged root (edits ++ [e]) (ts ++ n.tree.tokens ++ gap)
      (us ++ e.replacement.tokens ++ gap) := by
  induction h with
  | rest ts => exact .target ts hn (.rest gap)
  | target front found _ ih => simpa using Exchanged.target front found ih

theorem of_stays (h : Exchanged new edits ts us) (hstays : ∀ e ∈ edits, e.Stays root new) :
    Exchanged root edits ts us := by
  induction h with
  | rest ts => exact .rest ts
  | target front found _ ih =>
    rw [List.forall_mem_cons] at hstays
    obtain ⟨m, hm, -, htree⟩ := hstays.1.tree_eq found
    rw [htree]
    exact .target front hm (ih hstays.2)

end Exchanged

/-- The edits exchange tokens in front of what stands behind all their targets. -/
theorem exists_exchanged (document : DocumentId) {edits : List Located} (h : FitsFromRight root edits)
    (hstart : ∀ l ∈ edits, StartsWithText l.edit.replacement.tokens)
    (hok : replaceTargets document root (edits.map Located.edit) = .ok new) {ts behind : List Token}
    (htokens : root.tokens = ts ++ behind) (hbehind : StartsWithText behind)
    (hstop : ∀ l ∈ edits, l.full.stop ≤ fullWidths ts) :
    ∃ us, new.tokens = us ++ behind ∧
      Exchanged root (edits.map Located.edit).reverse ts us := by
  induction edits generalizing root ts behind with
  | nil =>
    obtain rfl := Except.ok.inj hok
    exact ⟨ts, htokens, .rest ts⟩
  | cons l edits ih =>
    obtain ⟨n, hn, hfull, hlater, hstays⟩ := h.step
    rw [List.map_cons, replaceTargets_cons document hn] at hok
    rw [List.forall_mem_cons] at hstart hstop
    have hfront := (List.pairwise_cons.mp h.sorted).1
    obtain ⟨front, rest, hold, hnew, hoffset⟩ :=
      (replaced_of_findNode? l.edit.replacement hn).exists_tokens
    rw [tokens_tree_root] at hold
    have hspan : l.full.start = fullWidths front ∧
        l.full.stop = fullWidths (front ++ n.tree.tokens) := by
      have hwidth := n.tree.width_eq_fullWidths
      rw [hfull, fullWidths_append]
      simp only [fullSpan, Span.ofLength]
      omega
    -- the target comes first, and then the tokens that are left between it and `behind`
    obtain ⟨gap, rfl, rfl⟩ := exists_gap (hold.symm.trans htokens) (hspan.2 ▸ hstop.1) hbehind
    have hword : l.edit.replacement.tokens ≠ [] :=
      tokens_ne_nil_of_hasWord (h.fits l List.mem_cons_self).hasWord
    obtain ⟨us, hus, hexchanged⟩ := ih hlater hstart.2 hok (hnew.trans (List.append_assoc _ _ _))
      (startsWithText_append hword hstart.1 _) (fun k hk => hspan.1 ▸ hfront k hk)
    refine ⟨us ++ l.edit.replacement.tokens ++ gap, ?_, ?_⟩
    · rw [hus]
      simp
    · rw [List.map_cons, List.reverse_cons]
      refine (hexchanged.of_stays fun e he => ?_).concat hn gap
      obtain ⟨k, hk, rfl⟩ := List.mem_map.mp (List.mem_reverse.mp he)
      exact hstays k hk

/-- The tokens of the new tree are those of the old one, with those of the targets exchanged. -/
theorem exchanged_of_replaceTargets (document : DocumentId) {edits : List Located}
    (h : FitsFromRight root edits)
    (hstart : ∀ l ∈ edits, StartsWithText l.edit.replacement.tokens)
    (hok : replaceTargets document root (edits.map Located.edit) = .ok new) :
    Exchanged root (edits.map Located.edit).reverse root.tokens new.tokens := by
  have hstop : ∀ l ∈ edits, l.full.stop ≤ fullWidths root.tokens := by
    intro l hl
    obtain ⟨n, hn, hfull⟩ := h.holds l hl
    have hle := (replaced_of_findNode? n.tree hn).stop_le
    rw [Tree.width_eq_fullWidths (Node.root root).tree, tokens_tree_root] at hle
    rw [hfull]
    simp only [fullSpan, Span.ofLength]
    omega
  obtain ⟨us, hus, hexchanged⟩ :=
    exists_exchanged document h hstart hok (List.append_nil _).symm startsWithText_nil hstop
  rw [hus, List.append_nil]
  exact hexchanged

end SharpLint
