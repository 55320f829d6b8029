import SharpLint.Text.Span
import SharpLint.Tree.NodeKind
import SharpLint.Tree.Token

/-!
# Trees

A tree is a token, or a node with a kind and children. Everything of the source text is in the
tokens, so that the text of a tree is the text of its tokens in order:

    t.fullChars = t.tokens.flatMap Token.fullChars
    t.width = byteLength t.fullChars                      (width_eq_byteLength)
-/

namespace SharpLint

/-- A token, or a node with its children. -/
inductive Tree where
  | token (t : Token)
  | node (kind : NodeKind) (children : List Tree)
  deriving Inhabited

namespace Tree

/-! ## Equality -/

mutual

/-- Decides whether two trees are the same, trivia included. -/
def decEq : (a b : Tree) → Decidable (a = b)
  | .token s, .token t =>
    if h : s = t then isTrue (by rw [h]) else isFalse (by simpa using h)
  | .token _, .node _ _ => isFalse (by simp)
  | .node _ _, .token _ => isFalse (by simp)
  | .node k cs, .node l ds =>
    if hk : k = l then
      match decEqList cs ds with
      | isTrue h => isTrue (by rw [hk, h])
      | isFalse h => isFalse (by simp [h])
    else isFalse (by simp [hk])

/-- Decides whether two lists of trees are the same. -/
def decEqList : (as bs : List Tree) → Decidable (as = bs)
  | [], [] => isTrue rfl
  | [], _ :: _ => isFalse (by simp)
  | _ :: _, [] => isFalse (by simp)
  | a :: as, b :: bs =>
    match decEq a b, decEqList as bs with
    | isTrue h, isTrue hs => isTrue (by rw [h, hs])
    | isFalse h, _ => isFalse (by simp [h])
    | _, isFalse hs => isFalse (by simp [hs])

end

instance : DecidableEq Tree := decEq

/-! ## Tokens and text -/

mutual

/-- The tokens, in source order. -/
def tokens : Tree → List Token
  | .token t => [t]
  | .node _ cs => tokensOf cs

def tokensOf : List Tree → List Token
  | [] => []
  | c :: cs => tokens c ++ tokensOf cs

end

mutual

def nodeCount : Tree → Nat
  | .token _ => 0
  | .node _ cs => nodeCountOf cs + 1

/-- Number of nodes of several trees. -/
def nodeCountOf : List Tree → Nat
  | [] => 0
  | c :: cs => nodeCount c + nodeCountOf cs

end

mutual

/-- Number of bytes, trivia included. -/
def width : Tree → Nat
  | .token t => t.fullWidth
  | .node _ cs => widthOf cs

/-- Number of bytes of several trees. -/
def widthOf : List Tree → Nat
  | [] => 0
  | c :: cs => width c + widthOf cs

end

mutual

def firstToken? : Tree → Option Token
  | .token t => some t
  | .node _ cs => firstTokenOf? cs

def firstTokenOf? : List Tree → Option Token
  | [] => none
  | c :: cs => (firstToken? c).or (firstTokenOf? cs)

end

mutual

def lastToken? : Tree → Option Token
  | .token t => some t
  | .node _ cs => lastTokenOf? cs

def lastTokenOf? : List Tree → Option Token
  | [] => none
  | c :: cs => (lastTokenOf? cs).or (lastToken? c)

end

mutual

/-- Number of nodes on the longest way down. -/
def height : Tree → Nat
  | .token _ => 0
  | .node _ cs => heightOf cs + 1

def heightOf : List Tree → Nat
  | [] => 0
  | c :: cs => max (height c) (heightOf cs)

end

/-- All characters, trivia included. -/
def fullChars (t : Tree) : List Char := t.tokens.flatMap Token.fullChars

/-- The whole text, trivia included. -/
def fullText (t : Tree) : String := String.ofList t.fullChars

def leading (t : Tree) : List Trivia := (t.firstToken?.map Token.leading).getD []

def trailing (t : Tree) : List Trivia := (t.lastToken?.map Token.trailing).getD []

/-- The span without outer trivia of a tree that starts at `offset`. -/
def spanAt (t : Tree) (offset : Nat) : Span :=
  let start := offset + Trivia.widths t.leading
  ⟨start, max start (offset + t.width - Trivia.widths t.trailing)⟩

/-- The text without outer trivia. -/
def text (t : Tree) : String :=
  let span := t.spanAt 0
  String.ofList ((sliceBytes? span.start span.stop t.fullChars).getD [])

def kind? : Tree → Option NodeKind
  | .token _ => none
  | .node k _ => some k

def children : Tree → List Tree
  | .token _ => []
  | .node _ cs => cs

/-! ## Outer trivia -/

def hasToken (t : Tree) : Bool := t.firstToken?.isSome

mutual

def mapFirst (f : Token → Token) : Tree → Tree
  | .token t => .token (f t)
  | .node k cs => .node k (mapFirstOf f cs)

def mapFirstOf (f : Token → Token) : List Tree → List Tree
  | [] => []
  | c :: cs => if c.hasToken then mapFirst f c :: cs else c :: mapFirstOf f cs

end

mutual

def mapLast (f : Token → Token) : Tree → Tree
  | .token t => .token (f t)
  | .node k cs => .node k (mapLastOf f cs)

def mapLastOf (f : Token → Token) : List Tree → List Tree
  | [] => []
  | c :: cs => if (lastTokenOf? cs).isSome then c :: mapLastOf f cs else mapLast f c :: cs

end

/-- The tree with other trivia before its first token. -/
def withLeading (t : Tree) (ts : List Trivia) : Tree :=
  t.mapFirst fun tok => { tok with leading := ts }

/-- The tree with other trivia after its last token. -/
def withTrailing (t : Tree) (ts : List Trivia) : Tree :=
  t.mapLast fun tok => { tok with trailing := ts }

def withTriviaFrom (t other : Tree) : Tree :=
  (t.withLeading other.leading).withTrailing other.trailing

/-- Trivia that trimming keeps: all of them when a comment is among them, else none. -/
def keptTrivia (ts : List Trivia) : List Trivia :=
  if ts.any (·.kind.isComment) then ts else []

/-- The tree without outer blanks and line ends. Trivia with a comment stay as they are. -/
def trimmed (t : Tree) : Tree :=
  (t.withLeading (keptTrivia t.leading)).withTrailing (keptTrivia t.trailing)

/-! ## Lemmas -/

@[simp] theorem tokensOf_append (as bs : List Tree) :
    tokensOf (as ++ bs) = tokensOf as ++ tokensOf bs := by
  induction as with
  | nil => rfl
  | cons a as ih => simp [tokensOf, ih]

mutual

theorem width_eq_byteLength : (t : Tree) → t.width = byteLength t.fullChars
  | .token t => by
    simp [width, fullChars, tokens, Token.fullWidth_eq_byteLength]
  | .node _ cs => by
    have := widthOf_eq_byteLength cs
    simpa [width, fullChars, tokens] using this

theorem widthOf_eq_byteLength : (cs : List Tree) →
    widthOf cs = byteLength ((tokensOf cs).flatMap Token.fullChars)
  | [] => rfl
  | c :: cs => by
    have h := width_eq_byteLength c
    have hs := widthOf_eq_byteLength cs
    simp only [widthOf, tokensOf, List.flatMap_append, byteLength_append, ← hs]
    rw [h, fullChars]

end

end Tree

end SharpLint
