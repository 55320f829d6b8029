import SharpLint.Proofs.Tree.Nested
import SharpLint.Proofs.Tree.Parts
import SharpLint.Rule.SupportNamespace

/-!
# Public types in a support namespace, before and after an edit

A node is reported for what its children and those of its parent are. A type stands in no other
reported type, since there are no namespaces in types. So when a type declaration is replaced by one
that is not public, what is reported in the new tree was reported in the old one, the declaration
itself excepted (`exists_exposed`).
-/

namespace SharpLint

/-! ## Children by kind -/

/-- A token of the kind is among the children. -/
def Tree.holdsToken (k : TokenKind) : Tree → Bool
  | .token _ => false
  | .node _ cs => cs.any (·.label == .token k)

namespace Node

open SharpLint.Tree

/-- The first child node with some kind, as a tree. -/
theorem map_tree_find? (f : NodeKind → Bool) (n : Node) :
    (n.childNodes.find? fun m => f m.kind).map Node.tree =
      n.children.find? fun c => c.label.nodeKind?.any f := by
  suffices hfrom : ∀ cs i offset, ((n.childNodesFrom i offset cs).find? fun m => f m.kind).map
      Node.tree = cs.find? fun c => c.label.nodeKind?.any f from hfrom n.children 0 n.offset
  intro cs
  induction cs with
  | nil => exact fun _ _ => rfl
  | cons c cs ih =>
    intro i offset
    cases c with
    | token t => exact ih (i + 1) (offset + t.fullWidth)
    | node k ds =>
      have hnode : ((Tree.node k ds).label.nodeKind?.any f) = f k := rfl
      rw [childNodesFrom, List.find?_cons, List.find?_cons, hnode]
      cases f k with
      | true => rfl
      | false => exact ih (i + 1) (offset + widthOf ds)

theorem any_childTokens (n : Node) (k : TokenKind) :
    n.childTokens.any (·.token.kind == k) = n.tree.holdsToken k := by
  suffices hfrom : ∀ cs i offset, (n.childTokensFrom i offset cs).any (·.token.kind == k) =
      cs.any (·.label == .token k) from hfrom n.children 0 n.offset
  intro cs
  induction cs with
  | nil => exact fun _ _ => rfl
  | cons c cs ih =>
    intro i offset
    cases c with
    | token t =>
      rw [childTokensFrom, List.any_cons, ih, List.any_cons]
      congr 1
      rw [Bool.eq_iff_iff, beq_iff_eq, beq_iff_eq, Tree.label, Label.token.injEq]
    | node l ds => exact ih (i + 1) (offset + widthOf ds)

/-- Modifiers are looked for in the first list of modifiers. -/
theorem hasModifier_eq (n : Node) (k : Keyword) :
    n.hasModifier k = (n.children.find? fun c => c.label.nodeKind?.any (· == .modifierList)).any
      (holdsToken (.keyword k)) := by
  rw [← map_tree_find?, hasModifier, modifierTokens, childOfKind?]
  cases n.childNodes.find? fun m => m.kind == .modifierList with
  | none => rfl
  | some list => exact any_childTokens list (.keyword k)

end Node

/-! ## Reported nodes -/

namespace Rule.SupportNamespace

open SharpLint.Tree Node

variable {start : String}

/-- The node is a namespace whose name begins with `start`. -/
def isSupport (start : String) (p : Node) : Bool :=
  p.kind.isNamespaceDeclaration &&
    p.namespaceName?.any fun name => start.toList.isPrefixOf name.text.toList

/-- The node has the kind of a name. -/
def isName (k : NodeKind) : Bool := k == .identifierName || k == .qualifiedName

theorem isSupport_eq (p : Node) : isSupport start p = (p.kind.isNamespaceDeclaration &&
    (p.children.find? fun c => c.label.nodeKind?.any isName).any
      fun name => start.toList.isPrefixOf name.text.toList) := by
  rw [← map_tree_find?, Option.any_map]
  rfl

theorem isInside_eq (n : Node) : isInside start n = parentPasses (isSupport start) n.above := by
  rw [← any_parent?, isInside, Option.any_filter]
  rfl

theorem isExposed_eq (n : Node) : isExposed start n =
    (parentPasses (isSupport start) n.above && n.kind.isTypeDeclaration &&
      (n.children.find? fun c => c.label.nodeKind?.any (· == .modifierList)).any
        (holdsToken (.keyword .kwPublic))) := by
  rw [isExposed, isInside_eq, hasModifier_eq]

theorem placeless_isSupport : Placeless (isSupport start) := by
  intro n m hkind hchildren
  rw [isSupport_eq, isSupport_eq, hkind, hchildren]

theorem isExposed_of_resembles {n m : Node} (h : Resembles (isSupport start) n m) :
    isExposed start n = isExposed start m := by
  rw [isExposed_eq, isExposed_eq, h.kind, h.children, h.parent]

theorem isSupport_eq_false {p : Node} (h : p.kind.rank ≤ 4) : isSupport start p = false := by
  unfold isSupport
  cases hkind : p.kind.isNamespaceDeclaration with
  | false => rfl
  | true =>
    rw [NodeKind.rank_of_isNamespaceDeclaration hkind] at h
    omega

/-! ## Nothing is reported inside a type -/

mutual

theorem parentPasses_of_preorder {above : List Frame} {offset : Nat} {m : Node}
    (habove : parentPasses (isSupport start) above = false) : (t : Tree) → t.Laid →
    t.label.rank ≤ 4 → m ∈ preorder above offset t →
    parentPasses (isSupport start) m.above = false
  | .token _, _, _, hm => nomatch hm
  | .node k cs, ht, hrank, hm => by
    rcases List.mem_cons.mp hm with rfl | hm
    · exact habove
    · have hreach : k.reach ≤ 4 := NodeKind.reach_le_four hrank
      have hnode : isSupport start ⟨k, cs, offset, above⟩ = false := isSupport_eq_false hrank
      refine parentPasses_of_preorderOf hnode cs ht.2 (fun c hc => ?_) hm
      exact Nat.le_trans (ht.1.reaches c.label (List.mem_map_of_mem hc)) hreach

theorem parentPasses_of_preorderOf {n : Node} {i offset : Nat} {m : Node}
    (hn : isSupport start n = false) : (cs : List Tree) → LaidOf cs →
    (∀ c ∈ cs, c.label.rank ≤ 4) → m ∈ preorderOf n i offset cs →
    parentPasses (isSupport start) m.above = false
  | [], _, _, hm => nomatch hm
  | c :: cs, hlaid, hrank, hm => by
    rw [List.forall_mem_cons] at hrank
    rcases List.mem_append.mp hm with hm | hm
    · have hframe : parentPasses (isSupport start) (n.frame i :: n.above) = false := hn
      exact parentPasses_of_preorder hframe c hlaid.1 hrank.1 hm
    · exact parentPasses_of_preorderOf hn cs hlaid.2 hrank.2 hm

end

/-- What is reported among the nodes of a type declaration is the declaration. -/
theorem eq_of_isExposed {above : List Frame} {offset : Nat} {k : NodeKind} {cs : List Tree}
    (ht : (Tree.node k cs).Laid) (hk : k.rank ≤ 4) {m : Node}
    (hm : m ∈ preorder above offset (.node k cs)) (hexposed : isExposed start m = true) :
    m = ⟨k, cs, offset, above⟩ := by
  refine (List.mem_cons.mp hm).resolve_right fun hm => ?_
  have hreach : k.reach ≤ 4 := NodeKind.reach_le_four hk
  have hnode : isSupport start ⟨k, cs, offset, above⟩ = false := isSupport_eq_false hk
  have hparent := parentPasses_of_preorderOf hnode cs ht.2
    (fun c hc => Nat.le_trans (ht.1.reaches c.label (List.mem_map_of_mem hc)) hreach) hm
  rw [isExposed_eq, hparent] at hexposed
  cases hexposed

/-! ## One replacement -/

variable {r t t' : Tree} {above above' : List Frame} {offset : Nat} {n m' : Node}

/-- A search among children does not see a change of one that it does not look for. -/
theorem find?_append_congr {f : Tree → Bool} {left right : List Tree} {c c' : Tree}
    (hc : f c = false) (hc' : f c' = false) :
    (left ++ c' :: right).find? f = (left ++ c :: right).find? f := by
  rw [List.find?_append, List.find?_append, List.find?_cons, List.find?_cons, hc, hc']

/-- The label is of higher rank than names and lists of modifiers. -/
theorem any_nodeKind?_of_rank {l : Label} (h : 4 ≤ l.rank) {f : NodeKind → Bool}
    (hf : ∀ k, f k = true → k.rank ≤ 1) : l.nodeKind?.any f = false := by
  cases l with
  | token k => rfl
  | node k =>
    show f k = false
    rw [Bool.eq_false_iff]
    intro hk
    have hrank := hf k hk
    have hlow : 4 ≤ k.rank := h
    omega

theorem rank_isName (k : NodeKind) (h : isName k = true) : k.rank ≤ 1 := by
  rcases Bool.or_eq_true_iff.mp h with h | h
  · rw [beq_iff_eq.mp h]
    decide
  · rw [beq_iff_eq.mp h]
    decide

theorem rank_modifierList (k : NodeKind) (h : (k == .modifierList) = true) : k.rank ≤ 1 := by
  rw [beq_iff_eq.mp h]
  decide

/-- Names and lists of modifiers are not changed when a child of high rank is. -/
theorem find?_congr_of_rank {left right : List Tree} {c c' : Tree} (hc : 4 ≤ c.label.rank)
    (hc' : c'.label = c.label) {f : NodeKind → Bool} (hf : ∀ k, f k = true → k.rank ≤ 1) :
    ((left ++ c' :: right).find? fun d => d.label.nodeKind?.any f) =
      (left ++ c :: right).find? fun d => d.label.nodeKind?.any f := by
  have hnone : c.label.nodeKind?.any f = false := any_nodeKind?_of_rank hc hf
  refine find?_append_congr hnone ?_
  rw [hc', hnone]

/-- The node was reported before the declaration `n` was replaced, and it was not the declaration. What
stood in front of the declaration stands where it was. -/
structure Stems (start : String) (n m' m : Node) : Prop where
  exposed : isExposed start m = true
  ne : m ≠ n
  front : m.fullSpan.stop ≤ n.offset → m'.kind = m.kind ∧ m'.span = m.span

/-- What looks as before stems from what it was. -/
theorem stems_of_resembles {m : Node} (h : Resembles (isSupport start) m' m)
    (hexposed : isExposed start m' = true) (hne : m ≠ n)
    (hoffset : m.fullSpan.stop ≤ n.offset → m'.offset = m.offset) : Stems start n m' m := by
  refine ⟨isExposed_of_resembles h ▸ hexposed, hne, fun hfront => ⟨h.kind, ?_⟩⟩
  rw [Node.span, Node.span, h.tree, hoffset hfront]

section

variable {k : NodeKind} {left right : List Tree} {c c' : Tree} {f f' : Frame}

/-- The node around a child of high rank has the name and the modifiers that it had. -/
theorem stems_around (h : Replaced r (f :: above) (offset + widthOf left) c n c')
    (hc : 4 ≤ c.label.rank) (hlabel : c'.label = c.label) (hwidth : 0 < n.tree.width)
    (habove : parentPasses (isSupport start) above' = parentPasses (isSupport start) above)
    (hexposed : isExposed start ⟨k, left ++ c' :: right, offset, above'⟩ = true) :
    Stems start n ⟨k, left ++ c' :: right, offset, above'⟩ ⟨k, left ++ c :: right, offset, above⟩ := by
  refine ⟨?_, ?_, fun hfront => ?_⟩
  · rw [isExposed_eq] at hexposed ⊢
    rwa [find?_congr_of_rank hc hlabel rank_modifierList, habove] at hexposed
  · intro heq
    have hsuffix := h.above_suffix
    rw [← heq] at hsuffix
    exact Nat.not_succ_le_self _ hsuffix.length_le
  · -- it ends behind the declaration
    have hinside := h.offset_le
    have hstop := h.stop_le
    simp only [fullSpan, Span.ofLength, Node.tree, width, widthOf_append, widthOf] at hfront hwidth hstop
    omega

/-- What stands beside the child with the declaration is as before. -/
theorem exists_stems_beside (h : Replaced r (f :: above) (offset + widthOf left) c n c')
    (hwidth : 0 < n.tree.width)
    (hsupport : isSupport start ⟨k, left ++ c' :: right, offset, above'⟩ =
      isSupport start ⟨k, left ++ c :: right, offset, above⟩)
    (hm' : m' ∈ preorderOf ⟨k, left ++ c' :: right, offset, above'⟩ 0 offset left ∨
      m' ∈ preorderOf ⟨k, left ++ c' :: right, offset, above'⟩ (left.length + 1)
        (offset + widthOf left + c'.width) right) (hexposed : isExposed start m' = true) :
    ∃ m, (m ∈ preorderOf ⟨k, left ++ c :: right, offset, above⟩ 0 offset left ∨
      m ∈ preorderOf ⟨k, left ++ c :: right, offset, above⟩ (left.length + 1)
        (offset + widthOf left + c.width) right) ∧ Stems start n m' m := by
  have hinside := h.offset_le
  have hstop := h.stop_le
  rcases hm' with hm' | hm'
  · obtain ⟨m, hm, hsame, hoffset⟩ :=
      exists_mem_preorderOf placeless_isSupport hsupport 0 offset left hm'
    have hwithin := within_of_mem_preorderOf left hm
    refine ⟨m, .inl hm, stems_of_resembles hsame hexposed ?_ fun _ => by omega⟩
    rintro rfl
    omega
  · obtain ⟨m, hm, hsame, hoffset⟩ := exists_mem_preorderOf placeless_isSupport hsupport
      (left.length + 1) (offset + widthOf left + c.width) right hm'
    have hwithin := within_of_mem_preorderOf right hm
    refine ⟨m, .inr hm, stems_of_resembles hsame hexposed ?_ fun hfront => ?_⟩
    · rintro rfl
      omega
    · simp only [fullSpan, Span.ofLength] at hfront
      omega

end

/-- What is reported after a type declaration was replaced by one that is not public was reported
before, and it was not the declaration. -/
theorem exists_exposed (h : Replaced r above offset t n t') (ht : t.Laid) (hr : r.Laid)
    (hlabel : r.label = .node n.kind) (hkind : n.kind.isTypeDeclaration = true)
    (hwidth : 0 < n.tree.width)
    (hpublic : ∀ m : Node, m.tree = r → m.hasModifier .kwPublic = false)
    (habove : parentPasses (isSupport start) above' = parentPasses (isSupport start) above)
    (hm' : m' ∈ preorder above' offset t') (hexposed : isExposed start m' = true) :
    ∃ m ∈ preorder above offset t, Stems start n m' m := by
  have hrank := NodeKind.rank_of_isTypeDeclaration hkind
  induction h generalizing above' with
  | @here above offset k cs =>
    -- in the new declaration, only the declaration could be reported
    cases r with
    | token u => cases hlabel
    | node l ds =>
      cases hlabel
      have hself := eq_of_isExposed hr (Nat.le_of_eq hrank) hm' hexposed
      unfold isExposed at hexposed
      rw [hpublic m' (by rw [hself]; rfl), Bool.and_false] at hexposed
      cases hexposed
  | @child above offset k left c c' right n h ih =>
    have hc : c.Laid := (laidOf_append.mp ht.2).2.1
    have hcrank : 4 ≤ c.label.rank := by
      have hle := h.rank_le hc (Nat.le_of_eq hrank.symm)
      omega
    have hclabel : c'.label = c.label := (h.laid hr hlabel hc).2
    have hsupport : isSupport start ⟨k, left ++ c' :: right, offset, above'⟩ =
        isSupport start ⟨k, left ++ c :: right, offset, above⟩ := by
      rw [isSupport_eq, isSupport_eq, find?_congr_of_rank hcrank hclabel rank_isName]
    rcases mem_preorder_node.mp hm' with rfl | hm' | hm'
    · exact ⟨_, List.mem_cons_self, stems_around h hcrank hclabel hwidth habove hexposed⟩
    · -- in the child with the declaration
      have hframe : parentPasses (isSupport start)
          (frame ⟨k, left ++ c' :: right, offset, above'⟩ left.length :: above') =
          parentPasses (isSupport start)
            (frame ⟨k, left ++ c :: right, offset, above⟩ left.length :: above) := hsupport
      obtain ⟨m, hm, hfound⟩ := ih hc hlabel hkind hwidth hframe hm' hrank
      exact ⟨m, mem_preorder_node.mpr (.inr (.inl hm)), hfound⟩
    · obtain ⟨m, hm, hfound⟩ := exists_stems_beside h hwidth hsupport hm' hexposed
      exact ⟨m, mem_preorder_node.mpr (.inr (.inr hm)), hfound⟩

end Rule.SupportNamespace

end SharpLint
