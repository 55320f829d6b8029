import SharpLint.Tree.Node

/-!
# Preorder

`descendants` keeps the nodes to visit on a stack. It lists the nodes of a tree in the order of a
recursion over the tree:

    n.descendants = preorder n.above n.offset n.tree        (descendants_eq)

The tokens below a node are listed by a recursion of their own, and are those of its tree.
-/

namespace SharpLint.Node

open SharpLint.Tree

mutual

/-- The nodes of a tree that stands at `offset` below `above`. -/
def preorder (above : List Frame) (offset : Nat) : Tree → List Node
  | .token _ => []
  | .node k cs => ⟨k, cs, offset, above⟩ :: preorderOf ⟨k, cs, offset, above⟩ 0 offset cs

/-- The nodes of the children `cs` of `n`, the first of which is number `i` and starts at
`offset`. -/
def preorderOf (n : Node) (i offset : Nat) : List Tree → List Node
  | [] => []
  | c :: cs => preorder (n.frame i :: n.above) offset c ++ preorderOf n (i + 1) (offset + c.width) cs

end

theorem preorderOf_eq_flatMap (n : Node) (i offset : Nat) (cs : List Tree) :
    preorderOf n i offset cs =
      (n.childNodesFrom i offset cs).flatMap fun m => preorder m.above m.offset m.tree := by
  induction cs generalizing i offset with
  | nil => rfl
  | cons c cs ih =>
    rw [preorderOf, ih]
    cases c with
    | token t => rfl
    | node k ds => rw [childNodesFrom, List.flatMap_cons]; rfl

/-- A node comes first, and then what is below its children. -/
theorem preorder_eq_cons (n : Node) :
    preorder n.above n.offset n.tree =
      n :: n.childNodes.flatMap fun m => preorder m.above m.offset m.tree := by
  rw [childNodes, ← preorderOf_eq_flatMap]
  rfl

theorem nodeCountOf_append (as bs : List Tree) :
    nodeCountOf (as ++ bs) = nodeCountOf as + nodeCountOf bs := by
  induction as with
  | nil => exact (Nat.zero_add _).symm
  | cons a as ih => rw [List.cons_append, nodeCountOf, nodeCountOf, ih, Nat.add_assoc]

/-- Only child nodes have nodes to count. -/
theorem nodeCountOf_childNodesFrom (n : Node) (i offset : Nat) (cs : List Tree) :
    nodeCountOf ((n.childNodesFrom i offset cs).map tree) = nodeCountOf cs := by
  induction cs generalizing i offset with
  | nil => rfl
  | cons c cs ih =>
    cases c with
    | token t => rw [childNodesFrom, ih, nodeCountOf, nodeCount, Nat.zero_add]
    | node k ds => rw [childNodesFrom, List.map_cons, nodeCountOf, ih]; rfl

/-- With fuel for all nodes, the walk lists the trees on the stack in preorder. -/
theorem visit_eq {fuel : Nat} {stack : List Node} (h : nodeCountOf (stack.map tree) ≤ fuel) :
    visit fuel stack = stack.flatMap fun n => preorder n.above n.offset n.tree := by
  induction fuel generalizing stack with
  | zero =>
    cases stack with
    | nil => rfl
    | cons n stack =>
      rw [List.map_cons, nodeCountOf, tree, nodeCount] at h
      omega
  | succ fuel ih =>
    cases stack with
    | nil => rfl
    | cons n stack =>
      -- a visit puts all nodes below on the stack, but not the node itself
      have hfuel : nodeCountOf ((n.childNodes ++ stack).map tree) ≤ fuel := by
        rw [List.map_cons, nodeCountOf, tree, nodeCount] at h
        rw [List.map_append, nodeCountOf_append, childNodes, nodeCountOf_childNodesFrom]
        omega
      rw [visit, ih hfuel, List.flatMap_append, List.flatMap_cons, preorder_eq_cons]
      rfl

theorem descendants_eq (n : Node) : n.descendants = preorder n.above n.offset n.tree := by
  have hfuel : nodeCountOf ([n].map tree) ≤ n.tree.nodeCount := Nat.le_refl _
  rw [descendants, visit_eq hfuel, List.flatMap_singleton]

/-! ## Tokens -/

mutual

theorem map_token_tokensBelow (n : Node) (i offset : Nat) : (t : Tree) →
    (n.tokensBelow i offset t).map TokenAt.token = t.tokens
  | .token _ => rfl
  | .node k cs => map_token_tokensBelowOf ⟨k, cs, offset, n.frame i :: n.above⟩ 0 offset cs

theorem map_token_tokensBelowOf (n : Node) (i offset : Nat) : (cs : List Tree) →
    (n.tokensBelowOf i offset cs).map TokenAt.token = tokensOf cs
  | [] => rfl
  | c :: cs => by
    rw [tokensBelowOf, List.map_append, map_token_tokensBelow n i offset c,
      map_token_tokensBelowOf n (i + 1) (offset + c.width) cs, tokensOf]

end

/-- The tokens below a node are those of its tree, each in its place. -/
theorem map_token_tokens (n : Node) : n.tokens.map TokenAt.token = n.tree.tokens :=
  map_token_tokensBelowOf n 0 n.offset n.children

theorem map_token_tokens_root (t : Tree) : (root t).tokens.map TokenAt.token = t.tokens := by
  cases t with
  | token t => rfl
  | node k cs => exact map_token_tokens _

end SharpLint.Node
