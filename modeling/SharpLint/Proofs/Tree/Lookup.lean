import SharpLint.Proofs.Tree.Preorder
import SharpLint.Proofs.Tree.Shape
import SharpLint.Proofs.Tree.Slice

/-!
# Finding a node by its span

A search that starts at the root with the span of a node goes down to that node: it passes the nodes
around it and then the node (`pathTo_eq`). Some of those may have the same span. Where a node has a
child with text besides the one on the way, its span is larger, so that a search stops at the right
node:

    (root t).coveringNode n.span = n               if n is tight                   (coveringNode_eq)
    (root t).findNode? n.span n.kind = some n      if no node of the kind around n
                                                   has the span of n              (findNode?_eq)

A node is tight when its parent has another span.
-/

namespace SharpLint

open SharpLint.Tree

/-! ## Spans by tokens -/

/-- Number of bytes of tokens, trivia included. -/
def fullWidths : List Token → Nat
  | [] => 0
  | t :: ts => t.fullWidth + fullWidths ts

/-- Number of bytes of the texts of tokens. -/
def textWidths : List Token → Nat
  | [] => 0
  | t :: ts => t.text.utf8ByteSize + textWidths ts

/-- Number of bytes before the text of the first token. -/
def leadingWidth (ts : List Token) : Nat := ((ts.head?.map Token.leading).map Trivia.widths).getD 0

/-- Number of bytes behind the text of the last token. -/
def trailingWidth (ts : List Token) : Nat :=
  ((ts.getLast?.map Token.trailing).map Trivia.widths).getD 0

theorem textWidths_le (ts : List Token) : textWidths ts ≤ fullWidths ts := by
  induction ts with
  | nil => exact Nat.le_refl 0
  | cons t ts ih =>
    simp only [textWidths, fullWidths, Token.fullWidth]
    omega

theorem fullWidths_concat (ts : List Token) (t : Token) :
    fullWidths (ts ++ [t]) = fullWidths ts + t.fullWidth := by
  induction ts with
  | nil => simp [fullWidths]
  | cons u ts ih =>
    rw [List.cons_append, fullWidths, ih, fullWidths]
    omega

theorem textWidths_concat (ts : List Token) (t : Token) :
    textWidths (ts ++ [t]) = textWidths ts + t.text.utf8ByteSize := by
  induction ts with
  | nil => simp [textWidths]
  | cons u ts ih =>
    rw [List.cons_append, textWidths, ih, textWidths]
    omega

theorem textWidths_pos {ts : List Token} {t : Token} (ht : t ∈ ts) (htext : t.text ≠ "") :
    0 < textWidths ts := by
  induction ts with
  | nil => cases ht
  | cons u ts ih =>
    rw [textWidths]
    rcases List.mem_cons.mp ht with rfl | ht
    · have hbytes : t.text.utf8ByteSize ≠ 0 := fun h => htext (String.utf8ByteSize_eq_zero_iff.mp h)
      omega
    · exact Nat.lt_of_lt_of_le (ih ht) (Nat.le_add_left _ _)

/-- What comes before the text of some tokens does not reach into the texts in front of them. -/
theorem leadingWidth_append (us ts : List Token) :
    leadingWidth (us ++ ts) + textWidths us ≤ fullWidths us + leadingWidth ts := by
  cases us with
  | nil => simp [textWidths, fullWidths]
  | cons u us =>
    have hus := textWidths_le us
    simp only [leadingWidth, textWidths, fullWidths, List.cons_append, List.head?_cons,
      Option.map_some, Option.getD_some, Token.fullWidth]
    omega

/-- What comes behind the text of some tokens does not reach into the texts behind them. -/
theorem trailingWidth_append (ts us : List Token) :
    trailingWidth (ts ++ us) + textWidths us ≤ fullWidths us + trailingWidth ts := by
  rcases List.eq_nil_or_concat us with rfl | ⟨us, u, rfl⟩
  · simp [textWidths, fullWidths]
  · have hus := textWidths_le us
    rw [List.concat_eq_append, ← List.append_assoc, textWidths_concat, fullWidths_concat]
    simp only [trailingWidth, List.getLast?_append, List.getLast?_singleton, Option.some_or,
      Option.map_some, Option.getD_some, Token.fullWidth]
    omega

theorem textWidths_add_le (ts : List Token) :
    leadingWidth ts + textWidths ts + trailingWidth ts ≤ fullWidths ts := by
  cases ts with
  | nil => exact Nat.le_refl 0
  | cons t ts =>
    have htrailing := trailingWidth_append [t] ts
    simp only [leadingWidth, textWidths, fullWidths, trailingWidth, List.singleton_append,
      List.head?_cons, List.getLast?_singleton, Option.map_some, Option.getD_some, Token.fullWidth]
      at htrailing ⊢
    omega

/-- Spans that lie inside each other are the same. -/
theorem Span.eq_of_le {s t : Span} (hst : s.start ≤ t.start ∧ t.stop ≤ s.stop)
    (hts : t.start ≤ s.start ∧ s.stop ≤ t.stop) : s = t := by
  obtain ⟨a, b⟩ := s
  obtain ⟨c, d⟩ := t
  simp only [Span.mk.injEq] at hst hts ⊢
  omega

namespace Tree

theorem width_eq_fullWidths (t : Tree) : t.width = fullWidths t.tokens := by
  rw [width_eq_byteLength, fullChars]
  induction t.tokens with
  | nil => rfl
  | cons u us ih =>
    rw [List.flatMap_cons, byteLength_append, ih, ← Token.fullWidth_eq_byteLength]
    rfl

theorem widthOf_eq_fullWidths (ts : List Tree) : widthOf ts = fullWidths (tokensOf ts) :=
  (node .compilationUnit ts).width_eq_fullWidths

theorem spanAt_start (t : Tree) (offset : Nat) :
    (t.spanAt offset).start = offset + leadingWidth t.tokens := by
  rw [leadingWidth, ← firstToken?_eq_head?]
  unfold spanAt leading
  cases t.firstToken? with
  | none => rfl
  | some u => rfl

theorem spanAt_stop_add (t : Tree) (offset : Nat) :
    (t.spanAt offset).stop + trailingWidth t.tokens = offset + t.width := by
  have hwidth := t.width_eq_text
  have htrailing : trailingWidth t.tokens = Trivia.widths t.trailing := by
    rw [trailingWidth, ← lastToken?_eq_getLast?, trailing]
    cases t.lastToken? with
    | none => rfl
    | some u => rfl
  rw [spanAt_eq, htrailing]
  simp only [Span.ofLength]
  omega

theorem Sound.spanAt_pos {t : Tree} (h : t.Sound) (hword : t.HasWord) (offset : Nat) :
    (t.spanAt offset).start < (t.spanAt offset).stop := by
  obtain ⟨u, hu, hkind⟩ := hword
  have hpos := textWidths_pos hu (h.spelled u hu hkind)
  have hstop := t.spanAt_stop_add offset
  have hle := textWidths_add_le t.tokens
  rw [width_eq_fullWidths] at hstop
  rw [spanAt_start]
  omega

theorem Sound.text_ne_empty {t : Tree} (h : t.Sound) (hword : t.HasWord) : t.text ≠ "" := by
  intro hempty
  have hpos := h.spanAt_pos hword 0
  rw [spanAt_eq, hempty] at hpos
  exact Nat.lt_irrefl _ hpos

/-- The text of a child lies inside that of the node, and the texts of the other children lie outside
of it. -/
theorem spanAt_child (k : NodeKind) (left : List Tree) {c : Tree} (right : List Tree) (offset : Nat)
    (hc : c.tokens ≠ []) :
    ((node k (left ++ c :: right)).spanAt offset).start + textWidths (tokensOf left) ≤
        (c.spanAt (offset + widthOf left)).start ∧
      (c.spanAt (offset + widthOf left)).stop + textWidths (tokensOf right) ≤
        ((node k (left ++ c :: right)).spanAt offset).stop := by
  have htokens : (node k (left ++ c :: right)).tokens =
      tokensOf left ++ c.tokens ++ tokensOf right := by
    simp [tokens, tokensOf]
  have hfirst : leadingWidth (c.tokens ++ tokensOf right) = leadingWidth c.tokens := by
    rw [leadingWidth, List.head?_append, List.head?_eq_some_head hc, Option.some_or, leadingWidth,
      List.head?_eq_some_head hc]
  have hlast : trailingWidth (tokensOf left ++ c.tokens) = trailingWidth c.tokens := by
    rw [trailingWidth, List.getLast?_append, List.getLast?_eq_some_getLast hc, Option.some_or,
      trailingWidth, List.getLast?_eq_some_getLast hc]
  have hwidth : (node k (left ++ c :: right)).width =
      widthOf left + c.width + widthOf right := by
    simp [width, widthOf, Nat.add_assoc]
  constructor
  · have hleading := leadingWidth_append (tokensOf left) (c.tokens ++ tokensOf right)
    rw [hfirst, ← List.append_assoc, ← htokens, ← widthOf_eq_fullWidths] at hleading
    rw [spanAt_start, spanAt_start]
    omega
  · have htrailing := trailingWidth_append (tokensOf left ++ c.tokens) (tokensOf right)
    rw [hlast, ← htokens, ← widthOf_eq_fullWidths] at htrailing
    have hnode := (node k (left ++ c :: right)).spanAt_stop_add offset
    have hchild := c.spanAt_stop_add (offset + widthOf left)
    omega

end Tree

/-! ## Nodes of a tree -/

namespace Node

/-- The node is one of the nodes of the tree. -/
def Inside (n : Node) (t : Tree) : Prop := Element.Below t (.node n)

theorem Inside.root (t : Tree) : (Node.root t).Inside t := Element.Below.root

theorem Inside.child {t : Tree} {n m : Node} (h : n.Inside t) (hm : m ∈ n.childNodes) :
    m.Inside t :=
  Element.Below.child h (node_mem_elements.mpr hm)

/-- What holds of the root and goes from a node to its children holds of all nodes. -/
@[elab_as_elim]
theorem Inside.rec_childNodes {t : Tree} {motive : (n : Node) → n.Inside t → Prop}
    (root : motive (Node.root t) (.root t))
    (child : ∀ n m (h : n.Inside t) (hm : m ∈ n.childNodes), motive n h → motive m (h.child hm))
    {n : Node} (h : n.Inside t) : motive n h := by
  suffices hall : ∀ e : Element, e.Below t → ∀ n, e = .node n → ∃ h, motive n h from
    (hall _ h n rfl).2
  intro e he
  induction he with
  | root =>
    rintro _ ⟨⟩
    exact ⟨_, root⟩
  | child hn hmem ih =>
    rintro m rfl
    obtain ⟨h, hmotive⟩ := ih _ rfl
    exact ⟨_, child _ m h (node_mem_elements.mp hmem) hmotive⟩

/-- A child node among its siblings. -/
theorem exists_split_childNodesFrom {n m : Node} {i offset : Nat} {cs : List Tree}
    (h : m ∈ n.childNodesFrom i offset cs) :
    ∃ left right, cs = left ++ m.tree :: right ∧ m.offset = offset + widthOf left ∧
      m.above = n.frame (i + left.length) :: n.above := by
  induction cs generalizing i offset with
  | nil => cases h
  | cons c cs ih =>
    have hlater {width : Nat} (hwidth : c.width = width)
        (h : m ∈ n.childNodesFrom (i + 1) (offset + width) cs) :
        ∃ left right, c :: cs = left ++ m.tree :: right ∧ m.offset = offset + widthOf left ∧
          m.above = n.frame (i + left.length) :: n.above := by
      obtain ⟨left, right, rfl, hoffset, habove⟩ := ih h
      refine ⟨c :: left, right, rfl, ?_, ?_⟩
      · rw [hoffset, widthOf, hwidth]
        omega
      · rw [habove, List.length_cons, Nat.add_right_comm, Nat.add_assoc]
    cases c with
    | token t => exact hlater rfl h
    | node k ds =>
      rcases List.mem_cons.mp h with rfl | h
      · exact ⟨[], cs, rfl, rfl, rfl⟩
      · exact hlater rfl h

theorem exists_split_childNodes {n m : Node} (h : m ∈ n.childNodes) :
    ∃ left right, n.children = left ++ m.tree :: right ∧ m.offset = n.offset + widthOf left ∧
      m.above = n.frame left.length :: n.above := by
  obtain ⟨left, right, hchildren, hoffset, habove⟩ := exists_split_childNodesFrom h
  exact ⟨left, right, hchildren, hoffset, by rw [habove, Nat.zero_add]⟩

theorem tree_mem_children {n m : Node} (h : m ∈ n.childNodes) : m.tree ∈ n.children := by
  obtain ⟨left, right, hchildren, -⟩ := exists_split_childNodes h
  rw [hchildren]
  exact List.mem_append_right left List.mem_cons_self

/-- A child node is found by its number. -/
theorem children_getElem?_index {n m : Node} (h : m ∈ n.childNodes) :
    n.children[m.index]? = some m.tree := by
  obtain ⟨left, right, hchildren, -, habove⟩ := exists_split_childNodes h
  have hindex : m.index = left.length := by
    rw [index, habove]
    rfl
  rw [hindex, hchildren, List.getElem?_append_right (Nat.le_refl _), Nat.sub_self]
  rfl

theorem parent?_of_mem_childNodes {n m : Node} (h : m ∈ n.childNodes) :
    m.parent? = some n := by
  obtain ⟨left, right, -, -, habove⟩ := exists_split_childNodes h
  simp only [parent?, habove, frame]

theorem ofFrames_of_mem_childNodes {n m : Node} (h : m ∈ n.childNodes) :
    ofFrames m.above = n :: ofFrames n.above := by
  obtain ⟨left, right, -, -, habove⟩ := exists_split_childNodes h
  rw [habove, ofFrames]
  rfl

/-- A node with a parent is a child of it. -/
theorem Inside.of_parent? {t : Tree} {n p : Node} (h : n.Inside t) (hp : n.parent? = some p) :
    p.Inside t ∧ n ∈ p.childNodes := by
  cases h using Inside.rec_childNodes with
  | root => rw [parent?, above_root] at hp; cases hp
  | child q n hq hn _ =>
    rw [parent?_of_mem_childNodes hn, Option.some.injEq] at hp
    exact hp ▸ ⟨hq, hn⟩

/-- The nodes around a node are nodes of the tree. -/
theorem Inside.of_mem_ofFrames {t : Tree} {n a : Node} (h : n.Inside t)
    (ha : a ∈ ofFrames n.above) : a.Inside t := by
  induction h using Inside.rec_childNodes with
  | root => rw [above_root] at ha; cases ha
  | child p n hp hn ih =>
    rw [ofFrames_of_mem_childNodes hn, List.mem_cons] at ha
    rcases ha with rfl | ha
    · exact hp
    · exact ih ha

mutual

/-- What the children of a node take over from it holds of all nodes below. -/
theorem forall_mem_preorder {P : Node → Prop} (child : ∀ p m, P p → m ∈ p.childNodes → P m)
    {above : List Frame} {offset : Nat} : (u : Tree) →
    (∀ k cs, u = .node k cs → P ⟨k, cs, offset, above⟩) → ∀ n ∈ preorder above offset u, P n
  | .token _, _, n, hn => nomatch hn
  | .node k cs, hu, n, hn => by
    rcases List.mem_cons.mp hn with rfl | hn
    · exact hu k cs rfl
    · exact forall_mem_preorderOf child cs (fun m hm => child _ m (hu k cs rfl) hm) n hn

theorem forall_mem_preorderOf {P : Node → Prop} (child : ∀ p m, P p → m ∈ p.childNodes → P m)
    {p : Node} {i offset : Nat} : (cs : List Tree) →
    (∀ m ∈ p.childNodesFrom i offset cs, P m) → ∀ n ∈ preorderOf p i offset cs, P n
  | [], _, n, hn => nomatch hn
  | c :: cs, hcs, n, hn => by
    rcases List.mem_append.mp hn with hn | hn
    · refine forall_mem_preorder child c (fun k ds hc => ?_) n hn
      rw [hc] at hcs
      exact hcs _ List.mem_cons_self
    · refine forall_mem_preorderOf child cs (fun m hm => ?_) n hn
      cases c with
      | token u => exact hcs m hm
      | node k ds => exact hcs m (List.mem_cons_of_mem _ hm)

end

theorem forall_mem_descendants {P : Node → Prop} {n : Node} (self : P n)
    (child : ∀ p m, P p → m ∈ p.childNodes → P m) : ∀ m ∈ n.descendants, P m := by
  intro m hm
  rw [descendants_eq] at hm
  refine forall_mem_preorder child n.tree (fun k cs hnode => ?_) m hm
  obtain ⟨rfl, rfl⟩ := Tree.node.inj hnode
  exact self

theorem Inside.of_mem_descendants {t : Tree} {n : Node} (h : n ∈ (Node.root t).descendants) :
    n.Inside t :=
  forall_mem_descendants (P := (·.Inside t)) (.root t) (fun _ _ hp hm => Inside.child hp hm) n h

mutual

/-- A search goes down through nodes of the tree. -/
theorem mem_preorder_of_mem_descent {target : Span} {above : List Frame} {offset : Nat} {m : Node} :
    (u : Tree) → m ∈ descent target above offset u → m ∈ preorder above offset u
  | .token _, hm => nomatch hm
  | .node k cs, hm => by
    rcases List.mem_cons.mp hm with rfl | hm
    · exact List.mem_cons_self
    · exact List.mem_cons_of_mem _ (mem_preorderOf_of_mem_descentOf cs hm)

theorem mem_preorderOf_of_mem_descentOf {target : Span} {n : Node} {i offset : Nat} {m : Node} :
    (cs : List Tree) → m ∈ descentOf target n i offset cs → m ∈ preorderOf n i offset cs
  | [], hm => nomatch hm
  | .token t :: cs, hm => List.mem_append_right _ (mem_preorderOf_of_mem_descentOf cs hm)
  | .node k ds :: cs, hm => by
    rw [descentOf] at hm
    split at hm
    · exact List.mem_append_left _ (mem_preorder_of_mem_descent (.node k ds) hm)
    · exact List.mem_append_right _ (mem_preorderOf_of_mem_descentOf cs hm)

end

theorem Inside.of_findNode? {t : Tree} {m : Node} {target : Span} {kind : NodeKind}
    (h : (Node.root t).findNode? target kind = some m) : m.Inside t := by
  have hpath := List.mem_of_find?_eq_some h
  unfold pathTo at hpath
  split at hpath
  · refine .of_mem_descendants ?_
    rw [descendants_eq]
    exact mem_preorder_of_mem_descent _ hpath
  · cases hpath

/-! ## Spans of children -/

theorem fullSpan_of_mem_childNodes {n m : Node} (h : m ∈ n.childNodes) {target : Span}
    (hm : m.fullSpan.contains target = true) : n.fullSpan.contains target = true := by
  obtain ⟨left, right, hchildren, hoffset, -⟩ := exists_split_childNodes h
  have hwidth : n.tree.width = widthOf left + (m.tree.width + widthOf right) := by
    rw [Node.tree, hchildren, width, widthOf_append, widthOf]
  rw [Span.contains_iff] at hm ⊢
  simp only [fullSpan, Span.ofLength] at hm ⊢
  omega

/-- The text of a child lies inside that of its parent, and the texts of its siblings outside of
it. -/
theorem exists_span_of_mem_childNodes {n m : Node} (h : m ∈ n.childNodes)
    (hm : m.tree.tokens ≠ []) :
    ∃ left right, n.children = left ++ m.tree :: right ∧
      n.span.start + textWidths (tokensOf left) ≤ m.span.start ∧
      m.span.stop + textWidths (tokensOf right) ≤ n.span.stop := by
  obtain ⟨left, right, hchildren, hoffset, -⟩ := exists_split_childNodes h
  obtain ⟨hstart, hstop⟩ := spanAt_child n.kind left right n.offset hm
  rw [← hoffset, ← hchildren] at hstart hstop
  exact ⟨left, right, hchildren, hstart, hstop⟩

theorem contains_span (n : Node) : n.fullSpan.contains n.span = true := by
  have hstop := n.tree.spanAt_stop_add n.offset
  rw [Span.contains_iff]
  simp only [span, fullSpan, Span.ofLength, spanAt_start]
  omega

theorem span_of_mem_childNodes {n m : Node} (h : m ∈ n.childNodes) (hm : m.tree.tokens ≠ []) :
    n.span.start ≤ m.span.start ∧ m.span.stop ≤ n.span.stop := by
  obtain ⟨left, right, -, hstart, hstop⟩ := exists_span_of_mem_childNodes h hm
  omega

/-! ## The way down -/

/-- Children in front of the one that holds the target are passed by. -/
theorem descentOf_append {target : Span} {n : Node} (left right : List Tree) {k : NodeKind}
    {ds : List Tree} {i offset : Nat} (ht : target.start < target.stop)
    (hstart : offset + widthOf left ≤ target.start)
    (hstop : target.stop ≤ offset + widthOf left + widthOf ds) :
    descentOf target n i offset (left ++ .node k ds :: right) =
      descent target (n.frame (i + left.length) :: n.above) (offset + widthOf left) (.node k ds) := by
  induction left generalizing i offset with
  | nil =>
    have hadmits : admits (Span.ofLength offset (widthOf ds)) target = true :=
      (admits_iff ht).mpr ⟨hstart, hstop⟩
    rw [List.nil_append, descentOf, if_pos hadmits]
    rfl
  | cons c left ih =>
    rw [widthOf, ← Nat.add_assoc] at hstart hstop
    have hnext := ih (i := i + 1) hstart hstop
    have hindex : i + (c :: left).length = i + 1 + left.length := by
      rw [List.length_cons]
      omega
    rw [hindex, widthOf, ← Nat.add_assoc, ← hnext, List.cons_append]
    cases c with
    | token t => rfl
    | node l es =>
      rw [descentOf, if_neg]
      · rfl
      · rw [admits_iff ht]
        rw [width] at hstart
        omega

theorem descent_of_mem_childNodes {n m : Node} (h : m ∈ n.childNodes) {target : Span}
    (ht : target.start < target.stop) (hm : m.fullSpan.contains target = true) :
    descent target n.above n.offset n.tree = n :: descent target m.above m.offset m.tree := by
  obtain ⟨left, right, hchildren, hoffset, habove⟩ := exists_split_childNodes h
  rw [Span.contains_iff] at hm
  simp only [fullSpan, Span.ofLength, hoffset] at hm
  have hdown : descentOf target n 0 n.offset (left ++ m.tree :: right) =
      descent target (n.frame (0 + left.length) :: n.above) (n.offset + widthOf left) m.tree :=
    descentOf_append left right ht hm.1 hm.2
  rw [Nat.zero_add, ← hchildren] at hdown
  rw [habove, hoffset, ← hdown]
  rfl

/-- A search for bytes of a node passes the nodes around it and goes on below it. -/
theorem Inside.pathTo_eq {t : Tree} {n : Node} (h : n.Inside t) {target : Span}
    (ht : target.start < target.stop) (hn : n.fullSpan.contains target = true) :
    (Node.root t).pathTo target =
      (ofFrames n.above).reverse ++ descent target n.above n.offset n.tree := by
  induction h using Inside.rec_childNodes with
  | root => rw [pathTo, if_pos hn, above_root]; rfl
  | child n m hinside hm ih =>
    rw [ih (fullSpan_of_mem_childNodes hm hn), descent_of_mem_childNodes hm ht hn,
      ofFrames_of_mem_childNodes hm]
    simp

/-! ## Sound trees -/

theorem tokens_tree_root (t : Tree) : (Node.root t).tree.tokens = t.tokens := by
  cases t with
  | token t => rfl
  | node k cs => rfl

theorem Inside.shaped {t : Tree} {n : Node} (h : n.Inside t) (ht : t.Shaped) : n.tree.Shaped := by
  induction h using Inside.rec_childNodes with
  | root =>
    cases t with
    | token t => exact ⟨shape_of_isFree rfl _, trivial, trivial⟩
    | node k cs => exact ht
  | child n m _ hm ih => exact shapedOf_iff.mp ih.2 _ (tree_mem_children hm)

theorem Inside.mem_tokens {t : Tree} {n : Node} (h : n.Inside t) {u : Token}
    (hu : u ∈ n.tree.tokens) : u ∈ t.tokens := by
  induction h using Inside.rec_childNodes with
  | root => rwa [tokens_tree_root] at hu
  | child n m _ hm ih => exact ih (mem_tokensOf.mpr ⟨m.tree, tree_mem_children hm, hu⟩)

theorem Inside.tokens_sublist {t : Tree} {n : Node} (h : n.Inside t) :
    List.Sublist n.tree.tokens t.tokens := by
  induction h using Inside.rec_childNodes with
  | root => exact (tokens_tree_root t).symm ▸ List.Sublist.refl _
  | child n m _ hm ih =>
    obtain ⟨left, right, hchildren, -⟩ := exists_split_childNodes hm
    have htokens : n.tree.tokens = tokensOf left ++ (m.tree.tokens ++ tokensOf right) := by
      show tokensOf n.children = _
      rw [hchildren, tokensOf_append, tokensOf]
    rw [htokens] at ih
    exact ((List.sublist_append_left _ _).trans (List.sublist_append_right _ _)).trans ih

theorem Inside.sound {t : Tree} {n : Node} (h : n.Inside t) (ht : t.Sound) : n.tree.Sound :=
  ⟨h.shaped ht.shaped, fun u hu => ht.spelled u (h.mem_tokens hu)⟩

/-- A node with a word in it has a span with bytes. -/
theorem span_pos {n : Node} (hn : n.tree.Sound) (hword : n.tree.HasWord) :
    n.span.start < n.span.stop :=
  hn.spanAt_pos hword n.offset

theorem tokens_ne_nil_of_hasWord {t : Tree} (h : t.HasWord) : t.tokens ≠ [] := by
  obtain ⟨u, hu, -⟩ := h
  exact List.ne_nil_of_mem hu

/-- A node with text besides that of a child has not the span of the child. -/
theorem span_ne_of_countP {n m : Node} {p : Label → Bool} (hm : m ∈ n.childNodes)
    (hword : m.tree.HasWord)
    (htext : ∀ c ∈ n.children, p c.label = true → ∃ u ∈ c.tokens, u.text ≠ "")
    (hothers : (if p m.tree.label then 1 else 0) <
      (n.children.map Tree.label).countP p) : n.span ≠ m.span := by
  obtain ⟨left, right, hchildren, hstart, hstop⟩ :=
    exists_span_of_mem_childNodes hm (tokens_ne_nil_of_hasWord hword)
  intro hspan
  rw [hspan] at hstart hstop
  have hbare (ts : List Tree) (hts : ∀ c ∈ ts, c ∈ n.children) (hwidth : textWidths (tokensOf ts) = 0) :
      (ts.map Tree.label).countP p = 0 := by
    rw [List.countP_map, List.countP_eq_zero]
    intro c hc hlabel
    obtain ⟨u, hu, hutext⟩ := htext c (hts c hc) hlabel
    have hpos := textWidths_pos (mem_tokensOf.mpr ⟨c, hc, hu⟩) hutext
    omega
  have hleft := hbare left (fun c hc => by rw [hchildren]; simp [hc]) (by omega)
  have hright := hbare right (fun c hc => by rw [hchildren]; simp [hc]) (by omega)
  rw [hchildren, List.map_append, List.map_cons, List.countP_append, List.countP_cons, hleft,
    hright] at hothers
  omega

theorem span_ne_of_mem_childNodes {n m : Node} (hn : n.tree.Sound) (hm : m ∈ n.childNodes)
    (hword : m.tree.HasWord)
    (hothers : (if m.tree.label.isSolid then 1 else 0) <
      (n.children.map Tree.label).countP Label.isSolid) : n.span ≠ m.span := by
  refine span_ne_of_countP hm hword (fun c hc hsolid => ?_) hothers
  obtain ⟨u, hu, hkind⟩ := ShapedOf.hasWord n.children hn.shaped.2 c hc hsolid
  exact ⟨u, hu, hn.spelled u (mem_tokensOf.mpr ⟨c, hc, hu⟩) hkind⟩

/-! ## Where a search stops -/

/-- A node around another one has a child on the way to it, which holds its text. -/
theorem Inside.exists_between {t : Tree} {n : Node} (h : n.Inside t) (hword : n.tree.HasWord)
    {a : Node} (ha : a ∈ ofFrames n.above) :
    a.Inside t ∧ ∃ b ∈ a.childNodes, b.tree.HasWord ∧
      b.span.start ≤ n.span.start ∧ n.span.stop ≤ b.span.stop := by
  induction h using Inside.rec_childNodes with
  | root => rw [above_root] at ha; cases ha
  | child n m hinside hm ih =>
    rw [ofFrames_of_mem_childNodes hm, List.mem_cons] at ha
    rcases ha with rfl | ha
    · exact ⟨hinside, m, hm, hword, Nat.le_refl _, Nat.le_refl _⟩
    · have hn : n.tree.HasWord := hasWord_node (tree_mem_children hm) hword
      obtain ⟨hstart, hstop⟩ := span_of_mem_childNodes hm (tokens_ne_nil_of_hasWord hword)
      obtain ⟨haInside, b, hb, hbword, hbstart, hbstop⟩ := ih hn ha
      exact ⟨haInside, b, hb, hbword, by omega, by omega⟩

/-- A search for the span of a node passes the nodes around it first. -/
theorem Inside.find?_pathTo {t : Tree} {n : Node} (h : n.Inside t) (hn : n.tree.Sound)
    (hword : n.tree.HasWord) {test : Node → Bool} (htest : test n = true)
    (hothers : ∀ a ∈ ofFrames n.above, test a = false) :
    ((Node.root t).pathTo n.span).find? test = some n := by
  rw [h.pathTo_eq (span_pos hn hword) (contains_span n), List.find?_append,
    List.find?_eq_none.mpr (fun a ha => by simp [hothers a (List.mem_reverse.mp ha)]), Option.none_or]
  exact List.find?_cons_of_pos htest

/-- The parent, if there is one, has another span. -/
def Tight (n : Node) : Prop := ∀ p, n.parent? = some p → p.span ≠ n.span

/-- No child has the span of the node. -/
def Wide (n : Node) : Prop := ∀ m ∈ n.childNodes, m.tree.HasWord → n.span ≠ m.span

theorem Wide.tight {n m : Node} (h : n.Wide) (hm : m ∈ n.childNodes) (hword : m.tree.HasWord) :
    m.Tight := by
  intro p hp
  rw [parent?_of_mem_childNodes hm, Option.some.injEq] at hp
  rw [← hp]
  exact h m hm hword

/-- A node with two children that have text is wide. -/
theorem wide_of_two_le {n : Node} (hn : n.tree.Sound)
    (htwo : 2 ≤ (n.children.map Tree.label).countP Label.isSolid) : n.Wide := by
  intro m hm hword
  refine span_ne_of_mem_childNodes hn hm hword ?_
  split
  · omega
  · omega

/-- Nodes around a node hold its text. -/
theorem Inside.span_le {t : Tree} {n a : Node} (h : n.Inside t) (hword : n.tree.HasWord)
    (ha : a ∈ ofFrames n.above) : a.span.start ≤ n.span.start ∧ n.span.stop ≤ a.span.stop := by
  obtain ⟨-, b, hb, hbword, hstart, hstop⟩ := h.exists_between hword ha
  obtain ⟨hstart', hstop'⟩ := span_of_mem_childNodes hb (tokens_ne_nil_of_hasWord hbword)
  omega

theorem span_ne_of_between {a b n : Node} (hab : a.span ≠ b.span)
    (hb : a.span.start ≤ b.span.start ∧ b.span.stop ≤ a.span.stop)
    (hn : b.span.start ≤ n.span.start ∧ n.span.stop ≤ b.span.stop) : a.span ≠ n.span := by
  intro hspan
  rw [← hspan] at hn
  exact hab (Span.eq_of_le hb hn)

theorem Inside.span_ne_of_wide {t : Tree} {n a : Node} (h : n.Inside t) (hword : n.tree.HasWord)
    (ha : a ∈ ofFrames n.above) (hwide : a.Wide) : a.span ≠ n.span := by
  obtain ⟨-, b, hb, hbword, hbetween⟩ := h.exists_between hword ha
  exact span_ne_of_between (hwide b hb hbword)
    (span_of_mem_childNodes hb (tokens_ne_nil_of_hasWord hbword)) hbetween

theorem Inside.span_ne_of_tight {t : Tree} {n a : Node} (h : n.Inside t) (hword : n.tree.HasWord)
    (ha : a ∈ ofFrames n.above) (htight : n.Tight) : a.span ≠ n.span := by
  cases h using Inside.rec_childNodes with
  | root => rw [above_root] at ha; cases ha
  | child p n hp hn _ =>
    have hpn := htight p (parent?_of_mem_childNodes hn)
    rw [ofFrames_of_mem_childNodes hn, List.mem_cons] at ha
    rcases ha with rfl | ha
    · exact hpn
    · have hpword : p.tree.HasWord := hasWord_node (tree_mem_children hn) hword
      obtain ⟨hstart, hstop⟩ := span_of_mem_childNodes hn (tokens_ne_nil_of_hasWord hword)
      intro hspan
      have hle := hp.span_le hpword ha
      rw [hspan] at hle
      exact span_ne_of_between hpn ⟨hstart, hstop⟩ hle rfl

/-- A search for the span of a node stops at it, if its parent has another span. -/
theorem Inside.coveringNode_eq {t : Tree} {n : Node} (h : n.Inside t) (hn : n.tree.Sound)
    (hword : n.tree.HasWord) (htight : n.Tight) : (Node.root t).coveringNode n.span = n := by
  have hfind : ((Node.root t).pathTo n.span).find? (·.span == n.span) = some n :=
    h.find?_pathTo hn hword (beq_self_eq_true _) fun a ha =>
      beq_eq_false_iff_ne.mpr (h.span_ne_of_tight hword ha htight)
  rw [coveringNode, hfind]
  rfl

/-- A search for kind and span of a node finds one with this kind and span. -/
theorem Inside.exists_findNode {t : Tree} {n : Node} (h : n.Inside t) (hn : n.tree.Sound)
    (hword : n.tree.HasWord) : ∃ m, (Node.root t).findNode? n.span n.kind = some m ∧
      m.Inside t ∧ m.kind = n.kind ∧ m.span = n.span := by
  have hpath : n ∈ (Node.root t).pathTo n.span := by
    rw [h.pathTo_eq (span_pos hn hword) (contains_span n)]
    exact List.mem_append_right _ List.mem_cons_self
  have hsome : ((Node.root t).findNode? n.span n.kind).isSome = true :=
    List.find?_isSome.mpr ⟨n, hpath, by simp⟩
  obtain ⟨m, hm⟩ := Option.isSome_iff_exists.mp hsome
  exact ⟨m, hm, .of_findNode? hm, kind_span_of_findNode? hm⟩

/-- A search for kind and span of a node stops at it, if no node of that kind around it has that
span. -/
theorem Inside.findNode?_eq {t : Tree} {n : Node} (h : n.Inside t) (hn : n.tree.Sound)
    (hword : n.tree.HasWord)
    (hothers : ∀ a ∈ ofFrames n.above, a.kind = n.kind → a.span ≠ n.span) :
    (Node.root t).findNode? n.span n.kind = some n := by
  refine h.find?_pathTo hn hword (by simp) fun a ha => ?_
  simpa [beq_eq_false_iff_ne] using hothers a ha

end Node

end SharpLint
