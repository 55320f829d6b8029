import SharpLint.Proofs.Tree.Search

/-!
# Spans are slices

A tree prints its leading trivia, its text and its trailing trivia, one after the other
(`fullChars_eq_text`), so that the text is what the span cuts out. In a whole tree every node and
token stands behind the text in front of it (`Element.Below.exists_split`). Both together say what
spans are for:

    fullSpan   cuts the element with its trivia out of the whole text
    span       cuts its text out
    the full spans of the children of a node tile the full span of the node      (spans_of_below)
-/

namespace SharpLint

open SharpLint.Tree

theorem sliceBytes?_append (a b c : List Char) :
    sliceBytes? (byteLength a) (byteLength a + byteLength b) (a ++ b ++ c) = some b := by
  have hlt : ¬ byteLength a + byteLength b < byteLength a := by omega
  have hb := splitAtByte?_append b c
  rw [List.append_assoc]
  simp only [sliceBytes?, splitAtByte?_append, if_neg hlt, Nat.add_sub_cancel_left, hb,
    Option.map_some]

/-! ## First and last token -/

namespace Tree

mutual

theorem firstToken?_eq_head? : (t : Tree) → t.firstToken? = t.tokens.head?
  | .token _ => rfl
  | .node _ cs => by
    rw [firstToken?, tokens]
    exact firstTokenOf?_eq_head? cs

theorem firstTokenOf?_eq_head? : (cs : List Tree) → firstTokenOf? cs = (tokensOf cs).head?
  | [] => rfl
  | c :: cs => by
    rw [firstTokenOf?, tokensOf, List.head?_append, firstToken?_eq_head? c,
      firstTokenOf?_eq_head? cs]

end

mutual

theorem lastToken?_eq_getLast? : (t : Tree) → t.lastToken? = t.tokens.getLast?
  | .token _ => rfl
  | .node _ cs => by
    rw [lastToken?, tokens]
    exact lastTokenOf?_eq_getLast? cs

theorem lastTokenOf?_eq_getLast? : (cs : List Tree) → lastTokenOf? cs = (tokensOf cs).getLast?
  | [] => rfl
  | c :: cs => by
    rw [lastTokenOf?, tokensOf, List.getLast?_append, lastToken?_eq_getLast? c,
      lastTokenOf?_eq_getLast? cs]

end

/-! ## Text and outer trivia -/

/-- Tokens without the leading trivia of the first and the trailing trivia of the last. -/
theorem exists_core_of_tokens (a b : Token) (ts : List Token) (hb : (a :: ts).getLast? = some b) :
    ∃ core, (a :: ts).flatMap Token.fullChars =
        Trivia.chars a.leading ++ (a.text.toList ++ core) ++ Trivia.chars b.trailing := by
  induction ts generalizing a with
  | nil =>
    obtain rfl : a = b := by simpa using hb
    exact ⟨[], by simp [Token.fullChars]⟩
  | cons c ts ih =>
    rw [List.getLast?_cons_cons] at hb
    obtain ⟨core, hcore⟩ := ih c hb
    refine ⟨Trivia.chars a.trailing ++ Trivia.chars c.leading ++ c.text.toList ++ core, ?_⟩
    rw [List.flatMap_cons, hcore, Token.fullChars]
    simp only [List.append_assoc]

/-- Outer trivia of a tree, and what stands between them. -/
theorem exists_core (t : Tree) :
    ∃ core, t.fullChars = Trivia.chars t.leading ++ core ++ Trivia.chars t.trailing ∧
      ∀ tok ∈ t.tokens.head?, ∃ rest, core = tok.text.toList ++ rest := by
  unfold leading trailing fullChars
  rw [firstToken?_eq_head?, lastToken?_eq_getLast?]
  cases htokens : t.tokens with
  | nil => exact ⟨[], rfl, nofun⟩
  | cons a ts =>
    obtain ⟨b, hb⟩ : ∃ b, (a :: ts).getLast? = some b :=
      ⟨_, List.getLast?_eq_some_getLast (List.cons_ne_nil a ts)⟩
    obtain ⟨core, hcore⟩ := exists_core_of_tokens a b ts hb
    refine ⟨a.text.toList ++ core, by simpa [hb] using hcore, fun tok htok => ?_⟩
    obtain rfl : a = tok := by simpa using htok
    exact ⟨core, rfl⟩

theorem text_of_core {t : Tree} {core : List Char}
    (h : t.fullChars = Trivia.chars t.leading ++ core ++ Trivia.chars t.trailing) :
    t.text.toList = core := by
  have hwidth : t.width = Trivia.widths t.leading + byteLength core + Trivia.widths t.trailing := by
    simp only [width_eq_byteLength, h, byteLength_append, Trivia.widths_eq_byteLength]
  have hspan : t.spanAt 0 = ⟨byteLength (Trivia.chars t.leading),
      byteLength (Trivia.chars t.leading) + byteLength core⟩ := by
    unfold spanAt
    simp only [hwidth, Trivia.widths_eq_byteLength, Span.mk.injEq]
    omega
  unfold text
  simp only [hspan, String.toList_ofList]
  rw [h, sliceBytes?_append, Option.getD_some]

/-- A tree prints its text between its outer trivia. -/
theorem fullChars_eq_text (t : Tree) :
    t.fullChars = Trivia.chars t.leading ++ t.text.toList ++ Trivia.chars t.trailing := by
  obtain ⟨core, hcore, -⟩ := exists_core t
  rwa [text_of_core hcore]

theorem width_eq_text (t : Tree) :
    t.width = Trivia.widths t.leading + byteLength t.text.toList + Trivia.widths t.trailing := by
  rw [width_eq_byteLength, fullChars_eq_text]
  simp only [byteLength_append, Trivia.widths_eq_byteLength]

/-- The span has the length of the text and starts behind the leading trivia. -/
theorem spanAt_eq (t : Tree) (offset : Nat) :
    t.spanAt offset = Span.ofLength (offset + Trivia.widths t.leading) (byteLength t.text.toList) := by
  have := t.width_eq_text
  unfold spanAt Span.ofLength
  simp only [Span.mk.injEq, true_and]
  omega

theorem sliceBytes?_fullSpan (t : Tree) (pre post : List Char) :
    sliceBytes? (Span.ofLength (byteLength pre) t.width).start
      (Span.ofLength (byteLength pre) t.width).stop (pre ++ t.fullChars ++ post) =
      some t.fullChars := by
  rw [width_eq_byteLength]
  exact sliceBytes?_append pre t.fullChars post

theorem sliceBytes?_span (t : Tree) (pre post : List Char) :
    sliceBytes? (t.spanAt (byteLength pre)).start (t.spanAt (byteLength pre)).stop
      (pre ++ t.fullChars ++ post) = some t.text.toList := by
  have hslice := sliceBytes?_append (pre ++ Trivia.chars t.leading) t.text.toList
    (Trivia.chars t.trailing ++ post)
  rw [byteLength_append, ← Trivia.widths_eq_byteLength] at hslice
  rw [spanAt_eq]
  conv => lhs; rw [fullChars_eq_text]
  simpa only [Span.ofLength, List.append_assoc] using hslice

@[simp] theorem text_token (t : Token) : (Tree.token t).text = t.text := by
  refine String.toList_inj.mp (text_of_core ?_)
  simp [fullChars_token, Token.fullChars, leading, trailing, firstToken?, lastToken?]

end Tree

/-! ## Elements: nodes and tokens in place -/

/-- A node or a token in its place. -/
inductive Element where
  | node (n : Node)
  | token (t : TokenAt)

namespace Element

/-- The element without its place. -/
def tree : Element → Tree
  | .node n => n.tree
  | .token t => .token t.token

/-- Byte offset of the element with its trivia. -/
def offset : Element → Nat
  | .node n => n.offset
  | .token t => t.offset

/-- Span with the outer trivia. -/
def fullSpan : Element → Span
  | .node n => n.fullSpan
  | .token t => t.fullSpan

/-- Span without the outer trivia. -/
def span : Element → Span
  | .node n => n.span
  | .token t => t.span

/-- Text without the outer trivia. -/
def text : Element → String
  | .node n => n.text
  | .token t => t.token.text

/-- The element as a node. -/
def node? : Element → Option Node
  | .node n => some n
  | .token _ => none

/-- The element as a token. -/
def token? : Element → Option TokenAt
  | .node _ => none
  | .token t => some t

theorem fullSpan_eq (e : Element) : e.fullSpan = Span.ofLength e.offset e.tree.width := by
  cases e with
  | node n => rfl
  | token t => rfl

theorem span_eq (e : Element) : e.span = e.tree.spanAt e.offset := by
  cases e with
  | node n => rfl
  | token t =>
    rw [spanAt_eq]
    simp only [span, TokenAt.span, tree, text_token, utf8ByteSize_eq_byteLength]
    rfl

theorem text_eq (e : Element) : e.text = e.tree.text := by
  cases e with
  | node n => rfl
  | token t => exact (text_token t.token).symm

end Element

namespace Node

/-- The children `cs` of `n` in place, the first of which is number `i` and starts at `offset`. -/
def elementsFrom (n : Node) : Nat → Nat → List Tree → List Element
  | _, _, [] => []
  | i, offset, .token t :: cs =>
    .token ⟨t, offset, n, i⟩ :: elementsFrom n (i + 1) (offset + t.fullWidth) cs
  | i, offset, .node k ds :: cs =>
    .node ⟨k, ds, offset, n.frame i :: n.above⟩
      :: elementsFrom n (i + 1) (offset + Tree.widthOf ds) cs

/-- The children of a node, nodes and tokens, in order. -/
def elements (n : Node) : List Element := n.elementsFrom 0 n.offset n.children

theorem filterMap_node?_elementsFrom (n : Node) (i offset : Nat) (cs : List Tree) :
    (n.elementsFrom i offset cs).filterMap Element.node? = n.childNodesFrom i offset cs := by
  induction cs generalizing i offset with
  | nil => rfl
  | cons c cs ih =>
    cases c with
    | token t => simp [elementsFrom, childNodesFrom, List.filterMap_cons, Element.node?, ih]
    | node k ds => simp [elementsFrom, childNodesFrom, Element.node?, ih]

theorem filterMap_token?_elementsFrom (n : Node) (i offset : Nat) (cs : List Tree) :
    (n.elementsFrom i offset cs).filterMap Element.token? = n.childTokensFrom i offset cs := by
  induction cs generalizing i offset with
  | nil => rfl
  | cons c cs ih =>
    cases c with
    | token t => simp [elementsFrom, childTokensFrom, Element.token?, ih]
    | node k ds => simp [elementsFrom, childTokensFrom, List.filterMap_cons, Element.token?, ih]

/-- The nodes among the elements are the child nodes. -/
theorem filterMap_node?_elements (n : Node) : n.elements.filterMap Element.node? = n.childNodes :=
  n.filterMap_node?_elementsFrom 0 n.offset n.children

/-- The tokens among the elements are the child tokens. -/
theorem filterMap_token?_elements (n : Node) :
    n.elements.filterMap Element.token? = n.childTokens :=
  n.filterMap_token?_elementsFrom 0 n.offset n.children

theorem node_mem_elements {n m : Node} : .node m ∈ n.elements ↔ m ∈ n.childNodes := by
  rw [← filterMap_node?_elements, List.mem_filterMap]
  constructor
  · exact fun h => ⟨.node m, h, rfl⟩
  · rintro ⟨e, he, hm⟩
    cases e with
    | node m' => rwa [← Option.some.inj hm]
    | token t => cases hm

/-- The text of a node, cut at one of its children. -/
theorem exists_split_elementsFrom {n : Node} {i offset : Nat} {cs : List Tree} {e : Element}
    (h : e ∈ n.elementsFrom i offset cs) :
    ∃ pre post, (tokensOf cs).flatMap Token.fullChars = pre ++ e.tree.fullChars ++ post ∧
      e.offset = offset + byteLength pre := by
  induction cs generalizing i offset with
  | nil => cases h
  | cons c cs ih =>
    rw [tokensOf, List.flatMap_append]
    have hlater {j : Nat} (h : e ∈ n.elementsFrom j (offset + c.width) cs) :
        ∃ pre post, c.fullChars ++ (tokensOf cs).flatMap Token.fullChars =
          pre ++ e.tree.fullChars ++ post ∧ e.offset = offset + byteLength pre := by
      obtain ⟨pre, post, hsplit, hoffset⟩ := ih h
      refine ⟨c.fullChars ++ pre, post, by simp [hsplit], ?_⟩
      rw [hoffset, width_eq_byteLength, byteLength_append]
      omega
    cases c with
    | token t =>
      rw [elementsFrom, List.mem_cons] at h
      rcases h with rfl | h
      · exact ⟨[], (tokensOf cs).flatMap Token.fullChars, rfl, rfl⟩
      · exact hlater h
    | node k ds =>
      rw [elementsFrom, List.mem_cons] at h
      rcases h with rfl | h
      · exact ⟨[], (tokensOf cs).flatMap Token.fullChars, rfl, rfl⟩
      · exact hlater h

end Node

/-- Spans that follow one another from `start` to `stop` without gap or overlap. -/
def Tiles (stop : Nat) : Nat → List Span → Prop
  | start, [] => start = stop
  | start, s :: spans => s.start = start ∧ s.start ≤ s.stop ∧ Tiles stop s.stop spans

/-- The elements of a tree: its root, and the children of its nodes. -/
inductive Element.Below (t : Tree) : Element → Prop
  | root : Below t (.node (.root t))
  | child {n : Node} {e : Element} : Below t (.node n) → e ∈ n.elements → Below t e

/-- An element stands behind the text in front of it. -/
theorem Element.Below.exists_split {t : Tree} {e : Element} (h : e.Below t) :
    ∃ pre post, t.fullChars = pre ++ e.tree.fullChars ++ post ∧ e.offset = byteLength pre := by
  induction h with
  | root => exact ⟨[], [], by simp [Element.tree], by simp [Element.offset]⟩
  | @child n e _ he ih =>
    obtain ⟨pre, post, hsplit, hoffset⟩ := ih
    obtain ⟨pre', post', hsplit', hoffset'⟩ := Node.exists_split_elementsFrom he
    refine ⟨pre ++ pre', post' ++ post, ?_, ?_⟩
    · have hnode : (Element.node n).tree.fullChars = pre' ++ e.tree.fullChars ++ post' := by
        rw [← hsplit']
        exact fullChars_node n.kind n.children
      rw [hsplit, hnode]
      simp only [List.append_assoc]
    · have hstart : n.offset = byteLength pre := hoffset
      rw [hoffset', hstart, byteLength_append]

theorem tiles_elementsFrom (n : Node) (i offset : Nat) (cs : List Tree) :
    Tiles (offset + widthOf cs) offset ((n.elementsFrom i offset cs).map Element.fullSpan) := by
  induction cs generalizing i offset with
  | nil => rfl
  | cons c cs ih =>
    have hrest : Tiles (offset + widthOf (c :: cs)) (offset + c.width)
        ((n.elementsFrom (i + 1) (offset + c.width) cs).map Element.fullSpan) := by
      rw [widthOf, ← Nat.add_assoc]
      exact ih (i + 1) (offset + c.width)
    cases c with
    | token t => exact ⟨rfl, Nat.le_add_right offset t.fullWidth, hrest⟩
    | node k ds => exact ⟨rfl, Nat.le_add_right offset (widthOf ds), hrest⟩

/-- The full spans of the children tile the full span of their parent. -/
theorem Node.tiles_elements (n : Node) :
    Tiles n.fullSpan.stop n.fullSpan.start (n.elements.map Element.fullSpan) :=
  tiles_elementsFrom n 0 n.offset n.children

/-- In every tree, the full span of an element cuts the element with its trivia out of the text of
the tree, its span cuts out its text, its width is the length of what it prints, and the full spans
of the children of a node tile that of the node. -/
theorem spans_of_below {t : Tree} {e : Element} (h : e.Below t) :
    sliceBytes? e.fullSpan.start e.fullSpan.stop t.fullChars = some e.tree.fullChars ∧
    sliceBytes? e.span.start e.span.stop t.fullChars = some e.text.toList ∧
    e.tree.width = byteLength e.tree.fullChars ∧
    ∀ n, e = .node n →
      Tiles n.fullSpan.stop n.fullSpan.start (n.elements.map Element.fullSpan) ∧
      n.elements.filterMap Element.node? = n.childNodes ∧
      n.elements.filterMap Element.token? = n.childTokens := by
  obtain ⟨pre, post, hsplit, hoffset⟩ := h.exists_split
  refine ⟨?_, ?_, width_eq_byteLength e.tree, fun n _ => ⟨n.tiles_elements,
    n.filterMap_node?_elements, n.filterMap_token?_elements⟩⟩
  · rw [hsplit, Element.fullSpan_eq, hoffset]
    exact sliceBytes?_fullSpan e.tree pre post
  · rw [hsplit, Element.span_eq, Element.text_eq, hoffset]
    exact sliceBytes?_span e.tree pre post

/-- A list without children, and behind it a name of two bytes between a blank and a line end. -/
def emptyThenName : Tree :=
  .node .classDeclaration
    [.node .modifierList [], .token ⟨.identifier, "é", [.space], [⟨.endOfLine, "\n"⟩]⟩]

theorem spans_of_below_emptyThenName :
    ∃ e, Element.Below emptyThenName e ∧ e.fullSpan = ⟨0, 4⟩ ∧ e.span = ⟨1, 3⟩ ∧
      sliceBytes? 0 4 emptyThenName.fullChars = some " é\n".toList ∧
      sliceBytes? 1 3 emptyThenName.fullChars = some "é".toList := by
  have h : Element.Below emptyThenName (.token
      ⟨⟨.identifier, "é", [.space], [⟨.endOfLine, "\n"⟩]⟩, 0, .root emptyThenName, 1⟩) :=
    .child .root (.tail _ (.head _))
  obtain ⟨hfull, htext, -⟩ := spans_of_below h
  exact ⟨_, h, rfl, rfl, hfull, htext⟩

end SharpLint
