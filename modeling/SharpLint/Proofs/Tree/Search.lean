import SharpLint.Proofs.Tree.Replacement

/-!
# Search by span, before and after a replacement

A search for a span goes down through the children that hold it. What it finds is a node of the tree
(`mem_descent`). When a node behind that one is replaced, the way down is the same up to the node
where the ways to the two part, and from there on nothing changes (`descent_replaced`). The search
finds the same (`findNode?_replaced`), unless one of the nodes around the replaced one answers it
now. With text in the replacement none of them does, because all of them end behind the new text.
-/

namespace SharpLint.Node

open SharpLint.Tree

/-- The node answers a search for the kind and the span. -/
def isTarget (target : Span) (kind : NodeKind) (m : Node) : Bool :=
  m.kind == kind && m.span == target

/-- A frame without the children. -/
def spot (f : Frame) : NodeKind × Nat × Nat := (f.kind, f.offset, f.index)

/-- A node without the children of the nodes around it. -/
def place (m : Node) : NodeKind × List Tree × Nat × List (NodeKind × Nat × Nat) :=
  (m.kind, m.children, m.offset, m.above.map spot)

/-- A node of the kind that starts at `offset` or in front of it is around this one. -/
def isWithin (n : Node) (kind : NodeKind) (offset : Nat) : Bool :=
  n.above.any fun f => f.kind == kind && decide (f.offset ≤ offset)

theorem fullSpan_eq_of_place {m m' : Node} (h : m'.place = m.place) : m'.fullSpan = m.fullSpan := by
  simp only [place, Prod.mk.injEq] at h
  simp [fullSpan, tree, h]

theorem kinds_eq_of_place {m m' : Node} (h : m'.place = m.place) :
    m'.above.map Frame.kind = m.above.map Frame.kind := by
  simp only [place, Prod.mk.injEq] at h
  simpa [spot, Function.comp_def] using congrArg (List.map Prod.fst) h.2.2.2

theorem path_eq_of_place {m m' : Node} (h : m'.place = m.place) : m'.path = m.path := by
  simp only [place, Prod.mk.injEq] at h
  have hindex := congrArg (List.map fun s => s.2.2) h.2.2.2
  simp only [List.map_map, Function.comp_def, spot] at hindex
  rw [path, path, hindex]

theorem isWithin_eq_of_place {m m' : Node} (h : m'.place = m.place) (kind : NodeKind)
    (offset : Nat) : m'.isWithin kind offset = m.isWithin kind offset := by
  have hspot (n : Node) : n.isWithin kind offset =
      (n.above.map spot).any fun s => s.1 == kind && decide (s.2.1 ≤ offset) := by
    rw [List.any_map]
    rfl
  simp only [place, Prod.mk.injEq] at h
  rw [hspot, hspot, h.2.2.2]

theorem isTarget_eq_of_place {m m' : Node} (h : m'.place = m.place) (target : Span)
    (kind : NodeKind) : m'.isTarget target kind = m.isTarget target kind := by
  simp only [place, Prod.mk.injEq] at h
  simp [isTarget, span, tree, h]

/-! ## Where a search ends -/

mutual

/-- What a search passes is a node of the tree. -/
theorem mem_descent (r : Tree) (target : Span) (above : List Frame) (offset : Nat) :
    (t : Tree) → (m : Node) → m ∈ descent target above offset t →
    ∃ t', Replaced r above offset t m t'
  | .token _, _, h => by simp [descent] at h
  | .node k cs, m, h => by
    rw [descent, List.mem_cons] at h
    rcases h with rfl | h
    · exact ⟨r, .here k cs⟩
    · exact mem_descentOf r target above offset k [] cs m h

theorem mem_descentOf (r : Tree) (target : Span) (above : List Frame) (offset : Nat)
    (k : NodeKind) : (left cs : List Tree) → (m : Node) →
    m ∈ descentOf target ⟨k, left ++ cs, offset, above⟩ left.length (offset + widthOf left) cs →
    ∃ t', Replaced r above offset (.node k (left ++ cs)) m t'
  | _, [], _, h => by simp [descentOf] at h
  | left, .token t :: cs, m, h => by
    rw [descentOf] at h
    have ih := mem_descentOf r target above offset k (left ++ [.token t]) cs m
    simp only [List.append_assoc, List.singleton_append, List.length_append, List.length_singleton,
      widthOf_append, widthOf, width, Nat.add_zero, ← Nat.add_assoc] at ih
    exact ih h
  | left, .node l ds :: cs, m, h => by
    rw [descentOf] at h
    simp only at h
    split at h
    · obtain ⟨c', hc⟩ := mem_descent r target _ _ (.node l ds) m h
      exact ⟨_, .child left cs hc⟩
    · have ih := mem_descentOf r target above offset k (left ++ [.node l ds]) cs m
      simp only [List.append_assoc, List.singleton_append, List.length_append,
        List.length_singleton, widthOf_append, widthOf, width, Nat.add_zero, ← Nat.add_assoc] at ih
      exact ih h

end

mutual

/-- A search enters nothing that does not hold the target. -/
theorem contains_of_mem_descent {target : Span} {above : List Frame} {offset : Nat} {m : Node} :
    (u : Tree) → (Span.ofLength offset u.width).contains target = true →
    m ∈ descent target above offset u → m.fullSpan.contains target = true
  | .token _, _, hm => nomatch hm
  | .node k cs, hu, hm => by
    rcases List.mem_cons.mp hm with rfl | hm
    · exact hu
    · exact contains_of_mem_descentOf cs hm

theorem contains_of_mem_descentOf {target : Span} {n : Node} {i offset : Nat} {m : Node} :
    (cs : List Tree) → m ∈ descentOf target n i offset cs → m.fullSpan.contains target = true
  | [], hm => nomatch hm
  | .token t :: cs, hm => contains_of_mem_descentOf cs hm
  | .node k ds :: cs, hm => by
    rw [descentOf] at hm
    split at hm
    · rename_i hadmits
      exact contains_of_mem_descent (.node k ds) (Bool.and_eq_true_iff.mp hadmits).1 hm
    · exact contains_of_mem_descentOf cs hm

end

mutual

/-- The frames above do not change what is found. -/
theorem map_place_descent (target : Span) (above above' : List Frame) (offset : Nat)
    (habove : above.map spot = above'.map spot) :
    (t : Tree) → (descent target above offset t).map place = (descent target above' offset t).map place
  | .token _ => rfl
  | .node k cs => by
    simp only [descent, List.map_cons, place, habove]
    rw [← map_place_descentOf target ⟨k, cs, offset, above⟩ ⟨k, cs, offset, above'⟩ rfl rfl habove
      0 offset cs]

theorem map_place_descentOf (target : Span) (n n' : Node) (hkind : n.kind = n'.kind)
    (hoffset : n.offset = n'.offset) (habove : n.above.map spot = n'.above.map spot) : (i offset : Nat) → (cs : List Tree) →
    (descentOf target n i offset cs).map place = (descentOf target n' i offset cs).map place
  | _, _, [] => rfl
  | i, offset, .token t :: cs => by
    simp only [descentOf]
    exact map_place_descentOf target n n' hkind hoffset habove (i + 1) _ cs
  | i, offset, .node l ds :: cs => by
    simp only [descentOf]
    split
    · exact map_place_descent target (n.frame i :: n.above) (n'.frame i :: n'.above) offset
        (by simp only [List.map_cons, habove, spot, frame, hkind, hoffset]) (.node l ds)
    · exact map_place_descentOf target n n' hkind hoffset habove (i + 1) _ cs

end

/-- Equal up to frames, two ways down find the same. -/
theorem find?_of_map_place {l l' : List Node} (h : l.map place = l'.map place) {target : Span}
    {kind : NodeKind} {m : Node} (hm : l.find? (isTarget target kind) = some m) :
    ∃ m', l'.find? (isTarget target kind) = some m' ∧ m'.place = m.place := by
  induction l generalizing l' with
  | nil => simp at hm
  | cons a l ih =>
    cases l' with
    | nil => simp at h
    | cons a' l' =>
      simp only [List.map_cons, List.cons.injEq] at h
      have ha := isTarget_eq_of_place h.1.symm target kind
      rw [List.find?_cons] at hm ⊢
      rw [ha]
      split at hm
      · cases hm
        exact ⟨a', rfl, h.1.symm⟩
      · exact ih h.2 hm

theorem admits_iff {offset width : Nat} {target : Span} (ht : target.start < target.stop) :
    admits (Span.ofLength offset width) target = true ↔
      offset ≤ target.start ∧ target.stop ≤ offset + width := by
  have hempty : ¬ target.start = target.stop := by omega
  simp only [admits, Bool.and_eq_true, Span.contains_iff, Span.isEmpty, Span.ofLength,
    Bool.or_eq_true, beq_iff_eq, hempty, false_or, Bool.not_eq_true', beq_eq_false_iff_ne]
  omega

/-- A node stays open for a target that it still reaches. -/
theorem admits_of_le {offset width width' : Nat} {target : Span}
    (h : admits (Span.ofLength offset width) target = true) (ht : target.start ≤ target.stop)
    (hstop : target.stop ≤ offset + width') : admits (Span.ofLength offset width') target = true := by
  simp only [admits, Bool.and_eq_true, Span.contains_iff, Span.isEmpty, Span.ofLength,
    Bool.or_eq_true, beq_iff_eq, Bool.not_eq_true', beq_eq_false_iff_ne] at h ⊢
  omega

/-- A search enters no child that starts behind the start of its target. -/
theorem start_le_of_mem_descentOf {target : Span} {n : Node} {m : Node} : {i offset : Nat} →
    {cs : List Tree} → m ∈ descentOf target n i offset cs → offset ≤ target.start
  | _, _, [], h => by simp [descentOf] at h
  | i, offset, .token t :: cs, h => by
    rw [descentOf] at h
    have := start_le_of_mem_descentOf h
    omega
  | i, offset, .node l ds :: cs, h => by
    rw [descentOf] at h
    split at h
    · rename_i ha
      simp only [admits, Bool.and_eq_true, Span.contains_iff] at ha
      exact ha.1.1
    · have := start_le_of_mem_descentOf h
      omega

theorem offset_le_of_mem_descentOf {target : Span} {n : Node} {m : Node} : {i offset : Nat} →
    {cs : List Tree} → m ∈ descentOf target n i offset cs → offset ≤ m.offset
  | _, _, [], h => by simp [descentOf] at h
  | i, offset, .token t :: cs, h => by
    rw [descentOf] at h
    have := offset_le_of_mem_descentOf h
    omega
  | i, offset, .node l ds :: cs, h => by
    rw [descentOf] at h
    split at h
    · obtain ⟨_, hm⟩ := mem_descent (.node l ds) _ _ _ _ m h
      exact hm.offset_le
    · have := offset_le_of_mem_descentOf h
      omega

/-! ## The target and its node -/

/-- A node that answers a search for bytes holds these bytes. -/
theorem stop_le_of_isTarget {m : Node} {target : Span} {kind : NodeKind}
    (h : m.isTarget target kind) (ht : target.start < target.stop) :
    m.offset ≤ target.start ∧ target.stop ≤ m.offset + m.tree.width := by
  simp only [isTarget, Bool.and_eq_true, beq_iff_eq] at h
  have hs : (m.tree.spanAt m.offset) = target := h.2
  rw [← hs] at ht ⊢
  unfold spanAt at ht ⊢
  simp only at ht ⊢
  omega

/-! ## After a replacement -/

/-- The node ends before the other one starts, or has bytes and ends where the other one starts and
does not lie inside of it. -/
def InFront (m n : Node) : Prop :=
  m.offset + m.tree.width < n.offset ∨
    m.offset + m.tree.width = n.offset ∧ 0 < m.tree.width ∧ (0 < n.tree.width ∨ ¬ m.path <+: n.path)

theorem InFront.of_place {m m' n n' : Node} (h : m.InFront n) (hm : m'.place = m.place)
    (hn : n'.place = n.place) : m'.InFront n' := by
  have hpath := path_eq_of_place hm
  have hpath' := path_eq_of_place hn
  simp only [place, Prod.mk.injEq] at hm hn
  simpa [InFront, tree, hm, hn, hpath, hpath'] using h

/-- A node around another one is not in front of it. -/
theorem InFront.not_around {r t' : Tree} {m n : Node} (h : m.InFront n)
    (hreplaced : Replaced r m.above m.offset m.tree n t') : False := by
  have hstop := hreplaced.stop_le
  have hpath : m.path <+: n.path :=
    List.reverse_prefix.mpr (hreplaced.above_suffix.map Frame.index)
  obtain hlt | ⟨heq, -, hpos | hnot⟩ := h
  · omega
  · omega
  · exact hnot hpath

theorem InFront.stop_le {m n : Node} (h : m.InFront n) : m.offset + m.tree.width ≤ n.offset := by
  obtain hlt | ⟨heq, -⟩ := h
  · omega
  · omega

theorem InFront.lt_offset {m n : Node} (h : m.InFront n) : m.offset < n.offset := by
  obtain hlt | ⟨heq, hpos, -⟩ := h
  · omega
  · omega

/-- Children in front of a change: the search enters the same of them, or goes on behind them. -/
theorem descentOf_append_cases (target : Span) (n n' : Node) (hkind : n.kind = n'.kind)
    (hoffset : n.offset = n'.offset) (habove : n.above.map spot = n'.above.map spot) (as bs : List Tree) : (left : List Tree) →
    (i offset : Nat) →
    (descentOf target n i offset (left ++ as)).map place =
        (descentOf target n' i offset (left ++ bs)).map place ∨
      descentOf target n i offset (left ++ as) =
          descentOf target n (i + left.length) (offset + widthOf left) as ∧
        descentOf target n' i offset (left ++ bs) =
          descentOf target n' (i + left.length) (offset + widthOf left) bs
  | [], _, _ => .inr ⟨rfl, rfl⟩
  | .token t :: left, i, offset => by
    have ih := descentOf_append_cases target n n' hkind hoffset habove as bs left (i + 1) (offset + t.fullWidth)
    simpa [descentOf, widthOf, width, Nat.add_assoc, Nat.add_comm 1] using ih
  | .node l ds :: left, i, offset => by
    simp only [List.cons_append, descentOf]
    split
    · exact .inl (map_place_descent target (n.frame i :: n.above) (n'.frame i :: n'.above) offset
        (by simp only [List.map_cons, habove, spot, frame, hkind, hoffset]) (.node l ds))
    · have ih := descentOf_append_cases target n n' hkind hoffset habove as bs left (i + 1) (offset + widthOf ds)
      simpa [widthOf, width, Nat.add_assoc, Nat.add_comm 1] using ih

/-- Two ways to `m`, before and after `n` was replaced by `r`, start with nodes around `n`. From there
on they are the same. -/
def Parts (r : Tree) (n m : Node) (way way' : List Node) : Prop :=
  ∃ around rest around' rest', way = around ++ rest ∧ way' = around' ++ rest' ∧
    rest.map place = rest'.map place ∧ m ∉ around ∧
    ∀ a ∈ around', n.isWithin a.kind m.offset = true ∧ (r.text ≠ "" → n.offset < a.span.stop)

theorem Parts.of_place {r : Tree} {n m : Node} {way way' : List Node}
    (h : way.map place = way'.map place) : Parts r n m way way' :=
  ⟨[], way, [], way', rfl, rfl, h, List.not_mem_nil, by simp⟩

theorem Parts.cons {r : Tree} {n m p p' : Node} {way way' : List Node} (h : Parts r n m way way')
    (hm : m ≠ p) (hkind : n.isWithin p'.kind m.offset = true)
    (htext : r.text ≠ "" → n.offset < p'.span.stop) : Parts r n m (p :: way) (p' :: way') := by
  obtain ⟨around, rest, around', rest', rfl, rfl, hplace, hnotin, hall⟩ := h
  refine ⟨p :: around, rest, p' :: around', rest', rfl, rfl, hplace, ?_, ?_⟩
  · rw [List.mem_cons, not_or]
    exact ⟨hm, hnotin⟩
  · rw [List.forall_mem_cons]
    exact ⟨⟨hkind, htext⟩, hall⟩

theorem Parts.exists_mem {r : Tree} {n m : Node} {way way' : List Node} (h : Parts r n m way way')
    (hm : m ∈ way) : ∃ m' ∈ way', m'.place = m.place := by
  obtain ⟨around, rest, around', rest', rfl, rfl, hplace, hnotin, -⟩ := h
  have hrest : m.place ∈ rest'.map place :=
    hplace ▸ List.mem_map_of_mem ((List.mem_append.mp hm).resolve_left hnotin)
  obtain ⟨m', hm', hsame⟩ := List.mem_map.mp hrest
  exact ⟨m', List.mem_append_right _ hm', hsame⟩

/-- The way to something in front of a node parts from the way to this node, and goes on in the same
way after a replacement. -/
theorem descent_replaced {r t t' : Tree} {above : List Frame} {offset : Nat} {n m : Node}
    {target : Span} (h : Replaced r above offset t n t') (hm : m ∈ descent target above offset t)
    (hfront : m.InFront n) (ht : target.start ≤ target.stop) (hstop : target.stop ≤ n.offset)
    (above' : List Frame) (habove : above.map spot = above'.map spot) :
    Parts r n m (descent target above offset t) (descent target above' offset t') := by
  induction h generalizing above' with
  | here k cs =>
    -- nothing in the replaced node starts in front of it
    obtain ⟨_, hmem⟩ := mem_descent r _ _ _ _ m hm
    have hle := hmem.offset_le
    have hlt := hfront.lt_offset
    simp only at hlt
    omega
  | @child above offset k left c c' right n h ih =>
    have hreplaced := Replaced.child left right h
    have hroot : m ≠ ⟨k, left ++ c :: right, offset, above⟩ := by
      rintro rfl
      exact hfront.not_around hreplaced
    have hoffset : offset ≤ m.offset := by
      obtain ⟨_, hmem⟩ := mem_descent r _ _ _ _ m hm
      exact hmem.offset_le
    have hwithin : n.isWithin k m.offset = true := by
      refine List.any_eq_true.mpr ⟨_, h.above_suffix.subset List.mem_cons_self, ?_⟩
      simpa using hoffset
    simp only [descent, List.mem_cons, hroot, false_or] at hm ⊢
    refine Parts.cons ?_ hroot hwithin hreplaced.lt_stop
    obtain hsame | ⟨hold, hnew⟩ := descentOf_append_cases target ⟨k, left ++ c :: right, offset, above⟩
      ⟨k, left ++ c' :: right, offset, above'⟩ rfl rfl habove (c :: right) (c' :: right) left 0 offset
    · exact .of_place hsame
    rw [Nat.zero_add] at hold hnew
    rw [hold] at hm ⊢
    rw [hnew]
    cases c with
    | token tok => cases h
    | node l ds =>
      rw [descentOf] at hm ⊢
      simp only at hm ⊢
      split at hm
      · rename_i hadmits
        rw [if_pos hadmits]
        have hparts := ih hm hfront hstop
          (frame ⟨k, left ++ c' :: right, offset, above'⟩ left.length :: above')
          (by simp only [List.map_cons, habove, frame, spot])
        cases c' with
        | token tok =>
          obtain ⟨m', hm', -⟩ := hparts.exists_mem hm
          cases hm'
        | node l' ds' =>
          -- the search enters the new child as well
          have hle := h.offset_le_new
          rw [width] at hle
          rw [descentOf, if_pos (admits_of_le hadmits ht (by omega))]
          exact hparts
      · -- behind `c` nothing is in front of `n`
        have hbehind := offset_le_of_mem_descentOf hm
        have hle := h.stop_le
        have hlt := hfront.lt_offset
        rw [width] at hle
        omega

/-! ## Searches from the root -/

@[simp] theorem offset_root (t : Tree) : (root t).offset = 0 := by
  cases t <;> rfl

@[simp] theorem above_root (t : Tree) : (root t).above = [] := by
  cases t <;> rfl

@[simp] theorem fullChars_tree_root (t : Tree) : (root t).tree.fullChars = t.fullChars := by
  cases t with
  | token t => simp [root, tree, fullChars_node, tokensOf, Tree.tokens]
  | node k cs => rfl

theorem findNode?_eq (n : Node) (target : Span) (kind : NodeKind) :
    n.findNode? target kind =
      if n.fullSpan.contains target then
        (descent target n.above n.offset n.tree).find? (isTarget target kind)
      else none := by
  unfold findNode? pathTo isTarget
  split <;> rfl

theorem isTarget_of_findNode? {n m : Node} {target : Span} {kind : NodeKind}
    (h : n.findNode? target kind = some m) : m.isTarget target kind = true := by
  rw [findNode?_eq] at h
  split at h
  · exact List.find?_some h
  · cases h

theorem isTarget_iff {m : Node} {target : Span} {kind : NodeKind} :
    m.isTarget target kind = true ↔ m.kind = kind ∧ m.span = target := by
  simp [isTarget]

/-- What is found has the kind and the span. -/
theorem kind_span_of_findNode? {n m : Node} {target : Span} {kind : NodeKind}
    (h : n.findNode? target kind = some m) : m.kind = kind ∧ m.span = target :=
  isTarget_iff.mp (isTarget_of_findNode? h)

/-- A node that was found can be replaced. -/
theorem replaced_of_findNode? (r : Tree) {t : Tree} {m : Node} {target : Span} {kind : NodeKind}
    (h : (root t).findNode? target kind = some m) :
    Replaced r [] 0 (root t).tree m (m.replaceWith r) := by
  rw [findNode?_eq, above_root, offset_root] at h
  split at h
  · obtain ⟨t', ht'⟩ := mem_descent r _ _ _ _ m (List.mem_of_find?_eq_some h)
    rwa [ht'.replaceWith_eq]
  · cases h

/-- What was found in front of a node is found in the same place after that one was replaced by text,
or if no node of the kind is around both. -/
theorem findNode?_replaced {t r : Tree} {n m : Node} {target other : Span} {kind sort : NodeKind}
    (hn : (root t).findNode? other sort = some n) (hm : (root t).findNode? target kind = some m)
    (hfront : m.InFront n) (hr : r.text ≠ "" ∨ n.isWithin kind m.offset = false) :
    ∃ m', (root (n.replaceWith r)).findNode? target kind = some m' ∧ m'.place = m.place := by
  have hreplaced := replaced_of_findNode? r hn
  obtain ⟨hkind, rfl⟩ := kind_span_of_findNode? hm
  have hspan : m.span.start ≤ m.span.stop := Nat.le_max_left _ _
  rw [findNode?_eq, above_root, offset_root] at hm
  split at hm
  · rename_i hroot
    have hpath := List.mem_of_find?_eq_some hm
    have hstop : m.span.stop ≤ n.offset := by
      have hfull := contains_of_mem_descent (root t).tree (by simpa [fullSpan] using hroot) hpath
      rw [Span.contains_iff] at hfull
      have hle := hfront.stop_le
      exact Nat.le_trans hfull.2 hle
    obtain ⟨around, rest, around', rest', hl, hl', hplace, hnotin, hall⟩ :=
      descent_replaced hreplaced hpath hfront hspan hstop [] rfl
    rw [hl, List.find?_append] at hm
    -- neither the old nor the new nodes around `n` answer the search
    have hrest : rest.find? (isTarget m.span kind) = some m := by
      cases haround : around.find? (isTarget m.span kind) with
      | none => rwa [haround] at hm
      | some a =>
        rw [haround, Option.some_or, Option.some.injEq] at hm
        exact absurd (hm ▸ List.mem_of_find?_eq_some haround) hnotin
    have hnone : around'.find? (isTarget m.span kind) = none := by
      rw [List.find?_eq_none]
      intro a ha htarget
      simp only [isTarget, Bool.and_eq_true, beq_iff_eq] at htarget
      obtain ⟨hmem, hlt⟩ := hall a ha
      rcases hr with hr | hr
      · have := hlt hr
        rw [htarget.2] at this
        omega
      · rw [htarget.1, hr] at hmem
        cases hmem
    obtain ⟨m', hm', hp⟩ := find?_of_map_place hplace hrest
    refine ⟨m', ?_, hp⟩
    have hfind : (descent m.span [] 0 (n.replaceWith r)).find? (isTarget m.span kind) = some m' := by
      rw [hl', List.find?_append, hnone, Option.none_or, hm']
    cases ht' : n.replaceWith r with
    | token tok =>
      rw [ht', descent] at hfind
      cases hfind
    | node k cs =>
      rw [ht'] at hfind hreplaced
      have hin : (root (.node k cs)).fullSpan.contains m.span = true := by
        have := hreplaced.offset_le_new
        rw [Span.contains_iff]
        simp only [root, fullSpan, tree, Span.ofLength]
        omega
      rw [findNode?_eq, if_pos hin]
      exact hfind
  · cases hm

/-- A node with text that was found in front of another one is found in the same place after that
one was replaced. -/
theorem findNode?_replaceWith {t r : Tree} {n m : Node} {target other : Span} {kind sort : NodeKind}
    (hn : (root t).findNode? other sort = some n) (hm : (root t).findNode? target kind = some m)
    (ho : other.start < other.stop) (ht : target.start < target.stop)
    (hle : m.fullSpan.stop ≤ n.fullSpan.start) (hr : r.text ≠ "") :
    ∃ m', (root (n.replaceWith r)).findNode? target kind = some m' ∧ m'.place = m.place := by
  have hwidth := stop_le_of_isTarget (isTarget_of_findNode? hn) ho
  have hwidth' := stop_le_of_isTarget (isTarget_of_findNode? hm) ht
  simp only [fullSpan, Span.ofLength] at hle
  refine findNode?_replaced hn hm ?_ (.inl hr)
  unfold InFront
  omega

end SharpLint.Node
