import SharpLint.Proofs.Tree.Descendants

/-!
# Ranks of nodes

A node can have the span of one of its children: a constant pattern has that of its expression. Then
the child has a lower rank. Two children with text give the node a span of its own. So two nodes of
one kind never have the same span, if there is text in it:

    (t : Tree).Laid                                 every node of t has children as its kind allows
    (root t).findNode? n.span n.kind = some n       if t is laid and n has text   (findNode?_self)

The children of a node also have a highest rank. A declaration of a type stands in nothing but
namespaces and types, because its rank is out of reach of all other nodes. Modifiers are tokens for
the same reason (`Laid.exists_tokens`).
-/

namespace SharpLint

namespace NodeKind

/-- A node that has the span of a child has a higher rank than the child. -/
def rank : NodeKind → Nat
  | .constantPattern | .relationalPattern | .declarationPattern | .typePattern | .switchSection
  | .arrayRankSpecifier | .declarationExpression | .arrowExpressionClause | .equalsValueClause
  | .accessorList | .parameterList | .baseList | .whenClause | .interpolationAlignmentClause => 2
  | .variableDeclarator | .enumMemberDeclaration | .argument => 3
  | .classDeclaration | .structDeclaration | .interfaceDeclaration | .enumDeclaration
  | .recordDeclaration | .recordStructDeclaration | .delegateDeclaration => 4
  | .namespaceDeclaration | .fileScopedNamespaceDeclaration => 5
  | .compilationUnit => 6
  | _ => 1

/-- Highest rank of a child. -/
def reach : NodeKind → Nat
  | .compilationUnit | .namespaceDeclaration | .fileScopedNamespaceDeclaration => 5
  | .classDeclaration | .structDeclaration | .interfaceDeclaration | .enumDeclaration
  | .recordDeclaration | .recordStructDeclaration | .delegateDeclaration => 4
  | .modifierList => 0
  | _ => 3

/-- Least number of children with text. -/
def least : NodeKind → Nat
  | .modifierList | .compilationUnit => 0
  | .argumentList => 2
  | _ => 1

/-- Nodes of the kind have text, wherever they stand. -/
def isFull (k : NodeKind) : Bool := 0 < k.least

/-- A node may have `count` children with text and others, none of them of a rank above `highest`. -/
def allows (k : NodeKind) (highest count : Nat) : Bool :=
  (2 ≤ count || highest < k.rank) && highest ≤ k.reach && k.least ≤ count

theorem rank_pos (k : NodeKind) : 0 < k.rank := by
  unfold rank
  split <;> decide

/-- The children of a node have its rank at most, unless they are expressions or the like. -/
theorem reach_le (k : NodeKind) : k.reach ≤ 3 ∨ k.reach ≤ k.rank := by
  unfold reach
  split
  all_goals first
    | exact .inl (Nat.le_refl 3)
    | exact .inr (by decide)

theorem reach_le_four {k : NodeKind} (h : k.rank ≤ 4) : k.reach ≤ 4 := by
  have hreach := k.reach_le
  omega

theorem rank_of_isTypeDeclaration {k : NodeKind} (h : k.isTypeDeclaration = true) :
    k.rank = 4 := by
  unfold isTypeDeclaration at h
  split at h
  all_goals first
    | rfl
    | cases h

theorem rank_of_isNamespaceDeclaration {k : NodeKind} (h : k.isNamespaceDeclaration = true) :
    k.rank = 5 := by
  unfold isNamespaceDeclaration at h
  split at h
  all_goals first
    | rfl
    | cases h

end NodeKind

namespace Label

/-- Rank of a node; tokens are below all nodes. -/
def rank : Label → Nat
  | .token _ => 0
  | .node k => k.rank

/-- What always has text: tokens but the end of the text, and most nodes. -/
def isFull : Label → Bool
  | .token k => k != .endOfFile
  | .node k => k.isFull

end Label

/-- Number of labels with text. -/
def fullCount (ls : List Label) : Nat := ls.countP Label.isFull

/-- What the children of a node are, as far as text and ranks go. -/
structure Layout (k : NodeKind) (ls : List Label) : Prop where
  /-- Only a child of lower rank can have all the text of the node. -/
  drops : 2 ≤ fullCount ls ∨ ∀ l ∈ ls, l.rank < k.rank
  reaches : ∀ l ∈ ls, l.rank ≤ k.reach
  full : k.least ≤ fullCount ls

theorem layout_of_allows {k : NodeKind} {ls : List Label} {highest count : Nat}
    (hk : k.allows highest count = true) (hrank : ∀ l ∈ ls, l.rank ≤ highest)
    (hcount : count ≤ fullCount ls) : Layout k ls := by
  simp only [NodeKind.allows, Bool.and_eq_true, Bool.or_eq_true, decide_eq_true_eq] at hk
  obtain ⟨⟨hdrops, hreaches⟩, hfull⟩ := hk
  exact ⟨hdrops.imp (Nat.le_trans · hcount) fun h l hl => Nat.lt_of_le_of_lt (hrank l hl) h,
    fun l hl => Nat.le_trans (hrank l hl) hreaches, Nat.le_trans hfull hcount⟩

namespace Tree

mutual

/-- Every node has children as its kind allows. -/
def Laid : Tree → Prop
  | .token _ => True
  | .node k cs => Layout k (cs.map label) ∧ LaidOf cs

/-- Every node of the trees has children as its kind allows. -/
def LaidOf : List Tree → Prop
  | [] => True
  | c :: cs => c.Laid ∧ LaidOf cs

end

theorem laidOf_iff {ts : List Tree} : LaidOf ts ↔ ∀ t ∈ ts, t.Laid := by
  induction ts with
  | nil => simp [LaidOf]
  | cons t ts ih => simp [LaidOf, ih]

theorem laidOf_append {ts us : List Tree} : LaidOf (ts ++ us) ↔ LaidOf ts ∧ LaidOf us := by
  simp only [laidOf_iff, List.forall_mem_append]

mutual

theorem Laid.hasWord : (t : Tree) → t.Laid → t.label.isFull = true → t.HasWord
  | .token t, _, hk => ⟨t, List.mem_singleton_self t, bne_iff_ne.mp hk⟩
  | .node k cs, h, hk => by
    have hpos : 0 < fullCount (cs.map label) := Nat.lt_of_lt_of_le (of_decide_eq_true hk) h.1.full
    obtain ⟨l, hl, hfull⟩ := List.countP_pos_iff.mp hpos
    obtain ⟨c, hc, rfl⟩ := List.mem_map.mp hl
    exact hasWord_node hc (LaidOf.hasWord cs h.2 c hc hfull)

theorem LaidOf.hasWord : (cs : List Tree) → LaidOf cs →
    ∀ c ∈ cs, c.label.isFull = true → c.HasWord
  | [], _, c, hc, _ => nomatch hc
  | d :: cs, h, c, hc, hfull => by
    rcases List.mem_cons.mp hc with hcd | hc
    · rw [hcd] at hfull ⊢
      exact Laid.hasWord d h.1 hfull
    · exact LaidOf.hasWord cs h.2 c hc hfull

end

/-- Arguments end with text of their own behind the parenthesis. -/
theorem Laid.tokensOf_ne_nil {c : Tree} {cs : List Tree}
    (h : (Tree.node .argumentList (c :: cs)).Laid) : tokensOf cs ≠ [] := by
  have htwo : 2 ≤ fullCount (label c :: cs.map label) := h.1.full
  have hone : 0 < (cs.map label).countP Label.isFull := by
    rw [fullCount, List.countP_cons] at htwo
    split at htwo
    · omega
    · omega
  obtain ⟨l, hl, hfull⟩ := List.countP_pos_iff.mp hone
  obtain ⟨d, hd, rfl⟩ := List.mem_map.mp hl
  obtain ⟨u, hu, -⟩ := LaidOf.hasWord cs h.2.2 d hd hfull
  exact List.ne_nil_of_mem (mem_tokensOf.mpr ⟨d, hd, hu⟩)

/-- Modifiers are tokens. -/
theorem Laid.exists_tokens {cs : List Tree} (h : (Tree.node .modifierList cs).Laid) :
    ∃ ts : List Token, cs = ts.map .token := by
  have hrank : ∀ c ∈ cs, c.label.rank = 0 := fun c hc =>
    Nat.le_zero.mp (h.1.reaches c.label (List.mem_map_of_mem hc))
  clear h
  induction cs with
  | nil => exact ⟨[], rfl⟩
  | cons c cs ih =>
    rw [List.forall_mem_cons] at hrank
    obtain ⟨ts, rfl⟩ := ih hrank.2
    cases c with
    | token t => exact ⟨t :: ts, rfl⟩
    | node k ds => exact absurd hrank.1 (Nat.ne_of_gt k.rank_pos)

end Tree

/-! ## Replacement -/

namespace Replaced

open SharpLint.Tree

variable {r t t' : Tree} {above : List Frame} {offset : Nat} {n : Node}

/-- What is around a declaration has no lower rank. -/
theorem rank_le (h : Replaced r above offset t n t') (ht : t.Laid) (hn : 4 ≤ n.kind.rank) :
    n.kind.rank ≤ t.label.rank := by
  induction h with
  | here k cs => exact Nat.le_refl _
  | @child above offset k left c c' right n h ih =>
    obtain ⟨hlayout, hchildren⟩ := ht
    have hc : c ∈ left ++ c :: right := List.mem_append_right left List.mem_cons_self
    have hrank := ih (laidOf_iff.mp hchildren c hc) hn
    have hreach := hlayout.reaches c.label (List.mem_map_of_mem hc)
    have hk := k.reach_le
    show n.kind.rank ≤ k.rank
    omega

/-- A tree stays laid when a node is replaced by a laid one of its kind. -/
theorem laid (h : Replaced r above offset t n t') (hr : r.Laid) (hlabel : r.label = .node n.kind)
    (ht : t.Laid) : t'.Laid ∧ t'.label = t.label := by
  induction h with
  | here k cs => exact ⟨hr, hlabel⟩
  | @child above offset k left c c' right n h ih =>
    obtain ⟨hlayout, hchildren⟩ := ht
    rw [laidOf_append] at hchildren
    obtain ⟨hc', hlabel'⟩ := ih hlabel hchildren.2.1
    refine ⟨⟨?_, laidOf_append.mpr ⟨hchildren.1, hc', hchildren.2.2⟩⟩, rfl⟩
    rw [List.map_append, List.map_cons] at hlayout ⊢
    rwa [hlabel']

end Replaced

namespace Node

open SharpLint.Tree

/-! ## Nodes with one span -/

variable {t : Tree} {n : Node}

theorem Inside.laid (h : n.Inside t) (ht : t.Laid) : n.tree.Laid := by
  induction h using Inside.rec_childNodes with
  | root =>
    cases t with
    | token t =>
      have hallows : NodeKind.compilationUnit.allows 0 0 = true := rfl
      have hlayout : Layout .compilationUnit [.token t.kind] :=
        layout_of_allows hallows (by simp [Label.rank]) (Nat.zero_le _)
      exact ⟨hlayout, trivial, trivial⟩
    | node k cs => exact ht
  | child n m _ hm ih => exact laidOf_iff.mp ih.2 _ (tree_mem_children hm)

/-- A child with all the text of its parent has a lower rank. -/
theorem rank_lt_of_span {m : Node} (hn : n.tree.Laid)
    (hspelled : ∀ u ∈ n.tree.tokens, u.kind ≠ .endOfFile → u.text ≠ "") (hm : m ∈ n.childNodes)
    (hword : m.tree.HasWord) (hspan : n.span = m.span) : m.kind.rank < n.kind.rank := by
  rcases hn.1.drops with htwo | hdrops
  · refine absurd hspan (span_ne_of_countP (p := Label.isFull) hm hword (fun c hc hfull => ?_) ?_)
    · obtain ⟨u, hu, hkind⟩ := LaidOf.hasWord n.children hn.2 c hc hfull
      exact ⟨u, hu, hspelled u (mem_tokensOf.mpr ⟨c, hc, hu⟩) hkind⟩
    · change (if m.tree.label.isFull then 1 else 0) < fullCount _
      split
      · exact htwo
      · exact Nat.lt_of_lt_of_le Nat.zero_lt_two htwo
  · exact hdrops m.tree.label (List.mem_map_of_mem (tree_mem_children hm))

/-- Among the nodes around a node, those with its span have higher ranks. -/
theorem Inside.rank_lt (h : n.Inside t) (ht : t.Laid) (hsound : t.Sound)
    (hword : n.tree.HasWord) {a : Node} (ha : a ∈ ofFrames n.above) (hspan : a.span = n.span) :
    n.kind.rank < a.kind.rank := by
  induction h using Inside.rec_childNodes with
  | root => rw [above_root] at ha; cases ha
  | child p n hp hn ih =>
    have hdown : p.span = n.span → n.kind.rank < p.kind.rank :=
      rank_lt_of_span (hp.laid ht) (hp.sound hsound).spelled hn hword
    rw [ofFrames_of_mem_childNodes hn, List.mem_cons] at ha
    rcases ha with rfl | ha
    · exact hdown hspan
    -- the parent stands between the two, so that it has their span as well
    · have hpword : p.tree.HasWord := hasWord_node (tree_mem_children hn) hword
      have hpn := span_of_mem_childNodes hn (tokens_ne_nil_of_hasWord hword)
      have hap := hp.span_le hpword ha
      rw [hspan] at hap
      have hparent : p.span = n.span := Span.eq_of_le hpn hap
      exact Nat.lt_trans (hdown hparent) (ih hpword ha (hspan.trans hparent.symm))

/-- A search for kind and span of a node finds this node. -/
theorem Inside.findNode?_self (h : n.Inside t) (ht : t.Laid) (hsound : t.Sound)
    (hword : n.tree.HasWord) : (Node.root t).findNode? n.span n.kind = some n := by
  refine h.findNode?_eq (h.sound hsound) hword fun a ha hkind hspan => ?_
  have hrank := h.rank_lt ht hsound hword ha hspan
  rw [hkind] at hrank
  exact Nat.lt_irrefl _ hrank

end Node

end SharpLint
