import SharpLint.Proofs.Tree.Layout

/-!
# Nodes inside and beside each other

Of two nodes of a tree, one is below the other, or one ends before the other starts
(`apart_or_below`). Paths say which: a node is below those whose path its own path begins with
(`mem_descendants_of_path`). What stands in another place is the same apart from its offset and the frames
above it (`exists_mem_preorder`), so that after a replacement every node is a node of the replacement
or looks like a node of the old tree.
-/

namespace SharpLint.Node

open SharpLint.Tree

/-! ## Full spans -/

mutual

/-- A node stands inside the tree that it is found in. -/
theorem within_of_mem_preorder {above : List Frame} {offset : Nat} {m : Node} : (t : Tree) →
    m ∈ preorder above offset t → offset ≤ m.offset ∧ m.offset + m.tree.width ≤ offset + t.width
  | .token _, hm => nomatch hm
  | .node k cs, hm => by
    rcases List.mem_cons.mp hm with rfl | hm
    · exact ⟨Nat.le_refl _, Nat.le_refl _⟩
    · exact within_of_mem_preorderOf cs hm

theorem within_of_mem_preorderOf {n : Node} {i offset : Nat} {m : Node} : (cs : List Tree) →
    m ∈ preorderOf n i offset cs →
      offset ≤ m.offset ∧ m.offset + m.tree.width ≤ offset + widthOf cs
  | [], hm => nomatch hm
  | c :: cs, hm => by
    rw [widthOf]
    rcases List.mem_append.mp hm with hm | hm
    · have hwithin := within_of_mem_preorder c hm
      omega
    · have hwithin := within_of_mem_preorderOf cs hm
      omega

end

theorem within_of_mem_descendants {n m : Node} (h : m ∈ n.descendants) :
    n.offset ≤ m.offset ∧ m.offset + m.tree.width ≤ n.offset + n.tree.width := by
  rw [descendants_eq] at h
  exact within_of_mem_preorder n.tree h

/-- One node ends before the other one starts. -/
def Apart (n m : Node) : Prop :=
  n.offset + n.tree.width ≤ m.offset ∨ m.offset + m.tree.width ≤ n.offset

theorem Apart.of_mem_descendants {n m a b : Node} (h : n.Apart m) (ha : a ∈ n.descendants)
    (hb : b ∈ m.descendants) : a.Apart b := by
  have hwithin := within_of_mem_descendants ha
  have hwithin' := within_of_mem_descendants hb
  unfold Apart at h ⊢
  omega

theorem offset_le_of_mem_childNodesFrom {n m : Node} {i offset : Nat} {cs : List Tree}
    (h : m ∈ n.childNodesFrom i offset cs) : offset ≤ m.offset := by
  obtain ⟨left, right, -, hoffset, -⟩ := exists_split_childNodesFrom h
  omega

/-- Different children of a node are apart. -/
theorem apart_of_mem_childNodesFrom {n a b : Node} {i offset : Nat} : (cs : List Tree) →
    a ∈ n.childNodesFrom i offset cs → b ∈ n.childNodesFrom i offset cs → a = b ∨ a.Apart b
  | [], ha, _ => nomatch ha
  | .token t :: cs, ha, hb => apart_of_mem_childNodesFrom cs ha hb
  | .node k ds :: cs, ha, hb => by
    rcases List.mem_cons.mp ha with rfl | ha
    · rcases List.mem_cons.mp hb with rfl | hb
      · exact .inl rfl
      · exact .inr (.inl (offset_le_of_mem_childNodesFrom hb))
    · rcases List.mem_cons.mp hb with rfl | hb
      · exact .inr (.inr (offset_le_of_mem_childNodesFrom ha))
      · exact apart_of_mem_childNodesFrom cs ha hb

/-- Of two nodes of a tree, one is below the other, or they are apart. -/
theorem Inside.apart_or_below {t : Tree} {n m : Node} (hn : n.Inside t) (hm : m.Inside t) :
    m ∈ n.descendants ∨ n ∈ m.descendants ∨ n.Apart m := by
  induction hn using Inside.rec_childNodes with
  | root => exact .inl (mem_descendants_root.mpr hm)
  | child p n _ hchild ih =>
    have hup : n ∈ p.descendants := child_mem_descendants (self_mem_descendants p) hchild
    obtain hbelow | habove | hapart := ih
    · rw [descendants_eq_cons, List.mem_cons] at hbelow
      rcases hbelow with rfl | hbelow
      · exact .inr (.inl hup)
      · obtain ⟨q, hq, hmq⟩ := List.mem_flatMap.mp hbelow
        obtain rfl | hapart := apart_of_mem_childNodesFrom p.children hchild hq
        · exact .inl hmq
        · exact .inr (.inr (hapart.of_mem_descendants (self_mem_descendants n) hmq))
    · exact .inr (.inl (child_mem_descendants habove hchild))
    · exact .inr (.inr (hapart.of_mem_descendants hup (self_mem_descendants m)))

/-- The text of a node below lies inside the text of the node. -/
theorem span_of_mem_descendants {n m : Node} (h : m ∈ n.descendants) (hm : m.tree.tokens ≠ []) :
    n.span.start ≤ m.span.start ∧ m.span.stop ≤ n.span.stop := by
  refine forall_mem_descendants
    (P := fun m => m.tree.tokens ≠ [] → n.span.start ≤ m.span.start ∧ m.span.stop ≤ n.span.stop)
    (fun _ => ⟨Nat.le_refl _, Nat.le_refl _⟩) (fun p m ih hchild hm => ?_) m h hm
  have hp : p.tree.tokens ≠ [] := by
    obtain ⟨left, right, hchildren, -⟩ := exists_split_childNodes hchild
    have htokens : p.tree.tokens = tokensOf left ++ (m.tree.tokens ++ tokensOf right) := by
      rw [tree, Tree.tokens, hchildren, tokensOf_append, tokensOf]
    simp [htokens, hm]
  have houter := ih hp
  have hinner := span_of_mem_childNodes hchild hm
  omega

/-! ## Paths -/

@[simp] theorem path_root (t : Tree) : (root t).path = [] := by
  rw [path, above_root]
  rfl

theorem path_of_mem_childNodes {n m : Node} (h : m ∈ n.childNodes) : m.path = n.path ++ [m.index] := by
  obtain ⟨left, right, -, -, habove⟩ := exists_split_childNodes h
  simp [path, index, habove]

/-- Child nodes are told apart by their numbers. -/
theorem eq_of_index {p n m : Node} (hn : n ∈ p.childNodes) (hm : m ∈ p.childNodes)
    (h : n.index = m.index) : n = m := by
  obtain ⟨left, right, hchildren, hoffset, habove⟩ := exists_split_childNodes hn
  obtain ⟨left', right', hchildren', hoffset', habove'⟩ := exists_split_childNodes hm
  have hlength : left.length = left'.length := by
    simpa [index, habove, habove', frame] using h
  rw [hchildren'] at hchildren
  obtain ⟨rfl, hrest⟩ := List.append_inj hchildren.symm hlength
  obtain ⟨hkind, hbelow⟩ := Tree.node.inj (List.cons.inj hrest).1
  cases n
  cases m
  simp_all

/-- Two nodes of one tree are the same when their paths are. -/
theorem Inside.eq_of_path {t : Tree} {n m : Node} (hn : n.Inside t) (hm : m.Inside t)
    (h : n.path = m.path) : n = m := by
  induction hn using Inside.rec_childNodes generalizing m with
  | root =>
    cases hm using Inside.rec_childNodes with
    | root => rfl
    | child q m _ hmq _ =>
      rw [path_of_mem_childNodes hmq, path_root] at h
      simp at h
  | child p n hp hnp ih =>
    rw [path_of_mem_childNodes hnp] at h
    cases hm using Inside.rec_childNodes with
    | root =>
      rw [path_root] at h
      simp at h
    | child q m hq hmq _ =>
      rw [path_of_mem_childNodes hmq] at h
      obtain ⟨hpath, hindex⟩ := List.append_inj' h rfl
      obtain rfl := ih hq hpath
      exact eq_of_index hnp hmq (List.cons.inj hindex).1

/-- A node is below those whose path its own path begins with. -/
theorem Inside.mem_descendants_of_path {t : Tree} {n m : Node} (hn : n.Inside t) (hm : m.Inside t)
    (h : m.path <+: n.path) : n ∈ m.descendants := by
  induction hn using Inside.rec_childNodes with
  | root =>
    rw [path_root, List.prefix_nil] at h
    rw [hm.eq_of_path (.root t) (by rw [h, path_root])]
    exact self_mem_descendants _
  | child p n hp hnp ih =>
    by_cases hsame : n.path = m.path
    · rw [← (hp.child hnp).eq_of_path hm hsame]
      exact self_mem_descendants n
    · rw [path_of_mem_childNodes hnp, List.prefix_concat_iff, ← path_of_mem_childNodes hnp] at h
      exact child_mem_descendants (ih (h.resolve_left fun h => hsame h.symm)) hnp

/-! ## The same nodes in another place -/

theorem preorderOf_append (n : Node) (i offset : Nat) (as bs : List Tree) :
    preorderOf n i offset (as ++ bs) =
      preorderOf n i offset as ++ preorderOf n (i + as.length) (offset + widthOf as) bs := by
  induction as generalizing i offset with
  | nil => rfl
  | cons a as ih =>
    rw [List.cons_append, preorderOf, ih, preorderOf, List.append_assoc, widthOf, List.length_cons,
      Nat.add_assoc, Nat.add_assoc, Nat.add_comm 1]

/-- A node of a tree is the root, or in one child, or in another. -/
theorem mem_preorder_node {k : NodeKind} {left right : List Tree} {c : Tree} {above : List Frame}
    {offset : Nat} {m : Node} :
    let n : Node := ⟨k, left ++ c :: right, offset, above⟩
    m ∈ preorder above offset (.node k (left ++ c :: right)) ↔ m = n ∨
      m ∈ preorder (n.frame left.length :: above) (offset + widthOf left) c ∨
      (m ∈ preorderOf n 0 offset left ∨
        m ∈ preorderOf n (left.length + 1) (offset + widthOf left + c.width) right) := by
  intro n
  rw [preorder, List.mem_cons, preorderOf_append, preorderOf, List.mem_append, List.mem_append,
    Nat.zero_add]
  exact or_congr_right or_left_comm

/-- A test that asks for kind and children of a node, and not for its place. -/
def Placeless (p : Node → Bool) : Prop :=
  ∀ n m : Node, n.kind = m.kind → n.children = m.children → p n = p m

/-- The parent below these frames passes the test. -/
def parentPasses (p : Node → Bool) (above : List Frame) : Bool := (ofFrames above).head?.any p

theorem any_parent? (p : Node → Bool) (n : Node) : n.parent?.any p = parentPasses p n.above := by
  unfold parent? parentPasses
  cases n.above with
  | nil => rfl
  | cons f fs => rfl

/-- The node looks like the other one: it has the same subtree, and parents pass the test alike. -/
structure Resembles (p : Node → Bool) (n m : Node) : Prop where
  kind : n.kind = m.kind
  children : n.children = m.children
  parent : parentPasses p n.above = parentPasses p m.above

variable {p : Node → Bool}

theorem Resembles.tree {n m : Node} (h : Resembles p n m) : n.tree = m.tree := by
  rw [Node.tree, h.kind, h.children]
  rfl

mutual

/-- The nodes of a tree look the same wherever the tree stands. -/
theorem exists_mem_preorder (hp : Placeless p) {above above' : List Frame} {offset : Nat}
    {m : Node} (habove : parentPasses p above = parentPasses p above') (offset' : Nat) :
    (t : Tree) → m ∈ preorder above offset t →
    ∃ m' ∈ preorder above' offset' t, m.Resembles p m' ∧ m.offset + offset' = m'.offset + offset
  | .token _, hm => nomatch hm
  | .node k cs, hm => by
    rcases List.mem_cons.mp hm with rfl | hm
    · exact ⟨⟨k, cs, offset', above'⟩, List.mem_cons_self, ⟨rfl, rfl, habove⟩, Nat.add_comm _ _⟩
    · have hroot : p ⟨k, cs, offset, above⟩ = p ⟨k, cs, offset', above'⟩ := hp _ _ rfl rfl
      obtain ⟨m', hm', hsame⟩ := exists_mem_preorderOf hp hroot 0 offset' cs hm
      exact ⟨m', List.mem_cons_of_mem _ hm', hsame⟩

theorem exists_mem_preorderOf (hp : Placeless p) {n n' : Node} {i offset : Nat} {m : Node}
    (hn : p n = p n') (i' offset' : Nat) : (cs : List Tree) → m ∈ preorderOf n i offset cs →
    ∃ m' ∈ preorderOf n' i' offset' cs, m.Resembles p m' ∧ m.offset + offset' = m'.offset + offset
  | [], hm => nomatch hm
  | c :: cs, hm => by
    rcases List.mem_append.mp hm with hm | hm
    · have hframe : parentPasses p (n.frame i :: n.above) = parentPasses p (n'.frame i' :: n'.above) :=
        hn
      obtain ⟨m', hm', hsame⟩ := exists_mem_preorder hp hframe offset' c hm
      exact ⟨m', List.mem_append_left _ hm', hsame⟩
    · obtain ⟨m', hm', hsame, hoffset⟩ :=
        exists_mem_preorderOf hp hn (i' + 1) (offset' + c.width) cs hm
      exact ⟨m', List.mem_append_right _ hm', hsame, by omega⟩

end

end SharpLint.Node
