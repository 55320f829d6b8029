import SharpLint.Tree.Basic

/-!
# Nodes in place

A `Node` is a node of a tree together with its byte offset and the frames above it, so that spans
and ancestors can be asked for. A frame is a node seen from one of its children. Two nodes of one
tree are the same when their `path`s are.

    n.descendants          the node and all nodes below it, each before its children
    n.findNode? s k        the outermost node of kind k with the span s
    n.replaceWith t        the whole tree with t in the place of n
-/

namespace SharpLint

/-- A node seen from its child number `index`. -/
structure Frame where
  kind : NodeKind
  children : List Tree
  offset : Nat
  index : Nat
  deriving DecidableEq

/-- A node with its offset and the frames above it, innermost first. -/
structure Node where
  kind : NodeKind
  children : List Tree
  offset : Nat
  above : List Frame
  deriving DecidableEq

/-- A token with its offset and its place below a node. The offset is that of its leading
trivia. -/
structure TokenAt where
  token : Token
  offset : Nat
  parent : Node
  index : Nat
  deriving DecidableEq

namespace TokenAt

def span (t : TokenAt) : Span :=
  Span.ofLength (t.offset + Trivia.widths t.token.leading) t.token.text.utf8ByteSize

/-- Span of the text with its trivia. -/
def fullSpan (t : TokenAt) : Span := Span.ofLength t.offset t.token.fullWidth

end TokenAt

namespace Node

/-! ## Place -/

/-- The root of a tree. A lone token counts as the only child of a compilation unit. -/
def root : Tree → Node
  | .node kind children => ⟨kind, children, 0, []⟩
  | .token t => ⟨.compilationUnit, [.token t], 0, []⟩

/-- The node without its place. -/
def tree (n : Node) : Tree := .node n.kind n.children

def frame (n : Node) (index : Nat) : Frame := ⟨n.kind, n.children, n.offset, index⟩

/-- The node around this one. -/
def parent? (n : Node) : Option Node :=
  match n.above with
  | [] => none
  | f :: fs => some ⟨f.kind, f.children, f.offset, fs⟩

/-- Number of this node among its parent's children; zero for the root. -/
def index (n : Node) : Nat := (n.above.head?.map Frame.index).getD 0

/-- Numbers of the children to go through from the root. -/
def path (n : Node) : List Nat := (n.above.map Frame.index).reverse

/-- The nodes that frames stand for, innermost first. -/
def ofFrames : List Frame → List Node
  | [] => []
  | f :: fs => ⟨f.kind, f.children, f.offset, fs⟩ :: ofFrames fs

/-- This node and the ones around it, up to the root. -/
def ancestorsAndSelf (n : Node) : List Node := n :: ofFrames n.above

/-! ## Text -/

/-- Span with the outer trivia. -/
def fullSpan (n : Node) : Span := Span.ofLength n.offset n.tree.width

/-- Span without the leading trivia of the first and the trailing trivia of the last token. -/
def span (n : Node) : Span := n.tree.spanAt n.offset

def text (n : Node) : String := n.tree.text

/-- Kind and span, as shown to a reader. -/
def render (n : Node) : String := n.kind.name ++ "@" ++ n.span.render

/-! ## Children -/

/-- Child nodes among `cs`, the first of which is number `i` and starts at `offset`. -/
def childNodesFrom (n : Node) : Nat → Nat → List Tree → List Node
  | _, _, [] => []
  | i, offset, .token t :: cs => childNodesFrom n (i + 1) (offset + t.fullWidth) cs
  | i, offset, .node k ds :: cs =>
    ⟨k, ds, offset, n.frame i :: n.above⟩
      :: childNodesFrom n (i + 1) (offset + Tree.widthOf ds) cs

def childNodes (n : Node) : List Node := n.childNodesFrom 0 n.offset n.children

/-- Child tokens among `cs`, the first of which is number `i` and starts at `offset`. -/
def childTokensFrom (n : Node) : Nat → Nat → List Tree → List TokenAt
  | _, _, [] => []
  | i, offset, .token t :: cs =>
    ⟨t, offset, n, i⟩ :: childTokensFrom n (i + 1) (offset + t.fullWidth) cs
  | i, offset, .node _ ds :: cs => childTokensFrom n (i + 1) (offset + Tree.widthOf ds) cs

def childTokens (n : Node) : List TokenAt := n.childTokensFrom 0 n.offset n.children

def childNode? (n : Node) (i : Nat) : Option Node := n.childNodes[i]?

def childOfKind? (n : Node) (kind : NodeKind) : Option Node := n.childNodes.find? (·.kind == kind)

def childToken? (n : Node) (kind : TokenKind) : Option TokenAt :=
  n.childTokens.find? (·.token.kind == kind)

/-! ## Descendants -/

/-- Visits the nodes of a stack from its top, each before its children; `fuel` bounds the number of
visits. -/
def visit : Nat → List Node → List Node
  | fuel + 1, n :: stack => n :: visit fuel (n.childNodes ++ stack)
  | _, _ => []

/-- This node and all nodes below it, each before its children. -/
def descendants (n : Node) : List Node := visit n.tree.nodeCount [n]

mutual

/-- The tokens of the tree `t`, child number `i` of `n`, which starts at `offset`. -/
def tokensBelow (n : Node) (i offset : Nat) : Tree → List TokenAt
  | .token t => [⟨t, offset, n, i⟩]
  | .node k cs => tokensBelowOf ⟨k, cs, offset, n.frame i :: n.above⟩ 0 offset cs

/-- The tokens of the children `cs` of `n`, the first of which is number `i` and starts at
`offset`. -/
def tokensBelowOf (n : Node) (i offset : Nat) : List Tree → List TokenAt
  | [] => []
  | c :: cs => tokensBelow n i offset c ++ tokensBelowOf n (i + 1) (offset + c.width) cs

end

def tokens (n : Node) : List TokenAt := n.tokensBelowOf 0 n.offset n.children

mutual

/-- First token of the tree `t`, child number `i` of `n`, which starts at `offset`. -/
def firstBelow? (n : Node) (i offset : Nat) : Tree → Option TokenAt
  | .token t => some ⟨t, offset, n, i⟩
  | .node k cs => firstBelowOf? ⟨k, cs, offset, n.frame i :: n.above⟩ 0 offset cs

/-- First token of the children `cs` of `n`, the first of which is number `i` and starts at
`offset`. -/
def firstBelowOf? (n : Node) (i offset : Nat) : List Tree → Option TokenAt
  | [] => none
  | c :: cs => (firstBelow? n i offset c).or (firstBelowOf? n (i + 1) (offset + c.width) cs)

end

/-- First token below this node; child nodes without a token are passed over. -/
def firstToken? (n : Node) : Option TokenAt := n.firstBelowOf? 0 n.offset n.children

mutual

/-- Last token of the tree `t`, child number `i` of `n`, which starts at `offset`. -/
def lastBelow? (n : Node) (i offset : Nat) : Tree → Option TokenAt
  | .token t => some ⟨t, offset, n, i⟩
  | .node k cs => lastBelowOf? ⟨k, cs, offset, n.frame i :: n.above⟩ 0 offset cs

/-- Last token of the children `cs` of `n`, the first of which is number `i` and starts at
`offset`. -/
def lastBelowOf? (n : Node) (i offset : Nat) : List Tree → Option TokenAt
  | [] => none
  | c :: cs => (lastBelowOf? n (i + 1) (offset + c.width) cs).or (lastBelow? n i offset c)

end

/-- Last token below this node; child nodes without a token are passed over. -/
def lastToken? (n : Node) : Option TokenAt := n.lastBelowOf? 0 n.offset n.children

/-! ## Search by span -/

/-- A search for `target` goes down into a node with the span `full`. An empty node holds only an
empty target. -/
def admits (full target : Span) : Bool := full.contains target && (target.isEmpty || !full.isEmpty)

mutual

/-- The nodes from the tree at `offset` below `above` down towards `target`. -/
def descent (target : Span) (above : List Frame) (offset : Nat) : Tree → List Node
  | .token _ => []
  | .node k cs => ⟨k, cs, offset, above⟩ :: descentOf target ⟨k, cs, offset, above⟩ 0 offset cs

/-- The nodes from the first of the children `cs` of `n` that admits `target` downwards. -/
def descentOf (target : Span) (n : Node) (i offset : Nat) : List Tree → List Node
  | [] => []
  | .token t :: cs => descentOf target n (i + 1) (offset + t.fullWidth) cs
  | .node k ds :: cs =>
    let width := Tree.widthOf ds
    if admits (Span.ofLength offset width) target then
      descent target (n.frame i :: n.above) offset (.node k ds)
    else descentOf target n (i + 1) (offset + width) cs

end

/-- The nodes from this one down to the deepest whose full span holds `target`. -/
def pathTo (n : Node) (target : Span) : List Node :=
  if n.fullSpan.contains target then descent target n.above n.offset n.tree else []

/-- The outermost node on the way to `target` whose span is `target` and whose kind is `kind`. -/
def findNode? (n : Node) (target : Span) (kind : NodeKind) : Option Node :=
  (n.pathTo target).find? fun m => m.kind == kind && m.span == target

/-- The outermost node with exactly this span; else the innermost whose full span holds it; else
the node itself. -/
def coveringNode (n : Node) (target : Span) : Node :=
  let path := n.pathTo target
  ((path.find? (·.span == target)).or path.getLast?).getD n

/-! ## Replacement -/

/-- The whole tree with `t` in the place of this node. -/
def replaceWith (n : Node) (t : Tree) : Tree :=
  n.above.foldl (fun inner f => .node f.kind (f.children.set f.index inner)) t

end Node

end SharpLint
