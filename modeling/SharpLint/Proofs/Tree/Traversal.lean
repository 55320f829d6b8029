import SharpLint.Proofs.Tree.Outermost
import SharpLint.Proofs.Tree.Slice

/-!
# Traversal of a tree

The walk with a stack lists what a recursion lists, the node itself and then what is below each of its
child nodes. In this list a node stands before all that is below it, and no full span starts in front of
an earlier one (`Precedes`). The first and the last token are found without the list of all
tokens, in a bare tree and in a node that has its place, and are the ends of that list:

    n.descendants = n :: n.childNodes.flatMap descendants
    n.firstToken? = n.tokens.head?        n.lastToken? = n.tokens.getLast?        (traversal)
-/

namespace SharpLint.Node

open SharpLint.Tree

/-- The second node is a child of the first. -/
def HasChild (p n : Node) : Prop := n ∈ p.childNodes

/-- What is listed is the node and whatever is reached from it by going to children. -/
theorem mem_descendants_iff {n m : Node} :
    m ∈ n.descendants ↔ Relation.ReflTransGen HasChild n m := by
  constructor
  · exact forall_mem_descendants (P := Relation.ReflTransGen HasChild n) .refl
      (fun _ _ hp hm => hp.tail hm) m
  · intro h
    induction h with
    | refl => exact self_mem_descendants n
    | tail _ hm ih => exact child_mem_descendants ih hm

/-! ## Order -/

/-- The first node is not below the second, and does not start behind it. -/
def Precedes (a b : Node) : Prop := a ∉ b.descendants ∧ a.fullSpan.start ≤ b.fullSpan.start

/-- A node precedes what is below it. -/
theorem precedes_of_mem_descendants {n m : Node} (hm : m ∈ n.descendants) (hne : m ≠ n) :
    n.Precedes m :=
  ⟨fun hn => hne (eq_of_mem_descendants hm hn).symm, (within_of_mem_descendants hm).1⟩

/-- What is below a child precedes what is below a later child. -/
theorem precedes_of_mem_preorderOf {n a b : Node} {i offset : Nat} {c : Tree} {cs : List Tree}
    (ha : a ∈ preorder (n.frame i :: n.above) offset c)
    (hb : b ∈ preorderOf n (i + 1) (offset + c.width) cs) : a.Precedes b := by
  refine ⟨fun hab => ?_, ?_⟩
  · -- the frames above `a` would end with those of both children
    obtain ⟨j, hj, hsuffix⟩ := exists_frame_of_mem_preorderOf cs hb
    rw [descendants_eq] at hab
    have hbelow := hsuffix.trans (suffix_of_mem_preorder b.tree hab)
    exact Nat.ne_of_lt hj (eq_of_frames_suffix (suffix_of_mem_preorder c ha) hbelow)
  · have hleft := within_of_mem_preorder c ha
    have hright := within_of_mem_preorderOf cs hb
    show a.offset ≤ b.offset
    omega

mutual

theorem pairwise_preorder (above : List Frame) (offset : Nat) :
    (u : Tree) → (preorder above offset u).Pairwise Precedes
  | .token _ => .nil
  | .node k cs => by
    have hnodup := nodup_preorder above offset (.node k cs)
    refine .cons (fun m hm => precedes_of_mem_descendants ?_ ?_) (pairwise_preorderOf _ 0 offset cs)
    · rw [descendants_eq]
      exact List.mem_cons_of_mem _ hm
    · rintro rfl
      exact (List.nodup_cons.mp hnodup).1 hm

theorem pairwise_preorderOf (n : Node) (i offset : Nat) :
    (cs : List Tree) → (preorderOf n i offset cs).Pairwise Precedes
  | [] => .nil
  | c :: cs => List.pairwise_append.mpr ⟨pairwise_preorder _ offset c,
      pairwise_preorderOf n (i + 1) _ cs, fun _ ha _ hb => precedes_of_mem_preorderOf ha hb⟩

end

theorem pairwise_descendants (n : Node) : n.descendants.Pairwise Precedes := by
  rw [descendants_eq]
  exact pairwise_preorder _ _ _

/-! ## First and last token -/

mutual

theorem firstBelow?_eq_head? (n : Node) (i offset : Nat) :
    (t : Tree) → n.firstBelow? i offset t = (n.tokensBelow i offset t).head?
  | .token _ => rfl
  | .node k cs => firstBelowOf?_eq_head? ⟨k, cs, offset, n.frame i :: n.above⟩ 0 offset cs

theorem firstBelowOf?_eq_head? (n : Node) (i offset : Nat) :
    (cs : List Tree) → n.firstBelowOf? i offset cs = (n.tokensBelowOf i offset cs).head?
  | [] => rfl
  | c :: cs => by
    rw [firstBelowOf?, tokensBelowOf, List.head?_append, firstBelow?_eq_head? n i offset c,
      firstBelowOf?_eq_head? n (i + 1) (offset + c.width) cs]

end

mutual

theorem lastBelow?_eq_getLast? (n : Node) (i offset : Nat) :
    (t : Tree) → n.lastBelow? i offset t = (n.tokensBelow i offset t).getLast?
  | .token _ => rfl
  | .node k cs => lastBelowOf?_eq_getLast? ⟨k, cs, offset, n.frame i :: n.above⟩ 0 offset cs

theorem lastBelowOf?_eq_getLast? (n : Node) (i offset : Nat) :
    (cs : List Tree) → n.lastBelowOf? i offset cs = (n.tokensBelowOf i offset cs).getLast?
  | [] => rfl
  | c :: cs => by
    rw [lastBelowOf?, tokensBelowOf, List.getLast?_append, lastBelow?_eq_getLast? n i offset c,
      lastBelowOf?_eq_getLast? n (i + 1) (offset + c.width) cs]

end

/-- In every tree, the nodes from one node downwards are listed by recursion over child nodes: each
node of the subtree once, a node before all nodes below it, and full spans in the order of their
starts. The first and the last token of a node, and of a tree without its place, are the ends of the
list of tokens, which is the same for both. -/
theorem traversal :
    (∀ n : Node,
      n.descendants = n :: n.childNodes.flatMap descendants ∧
      (∀ m, m ∈ n.descendants ↔ Relation.ReflTransGen HasChild n m) ∧
      n.descendants.Nodup ∧
      n.descendants.Pairwise Precedes ∧
      n.firstToken? = n.tokens.head? ∧
      n.lastToken? = n.tokens.getLast? ∧
      n.tokens.map TokenAt.token = n.tree.tokens) ∧
    ∀ t : Tree, t.firstToken? = t.tokens.head? ∧ t.lastToken? = t.tokens.getLast? :=
  ⟨fun n => ⟨descendants_eq_cons n, fun _ => mem_descendants_iff, nodup_descendants n,
      pairwise_descendants n, firstBelowOf?_eq_head? n 0 n.offset n.children,
      lastBelowOf?_eq_getLast? n 0 n.offset n.children, map_token_tokens n⟩,
    fun t => ⟨t.firstToken?_eq_head?, t.lastToken?_eq_getLast?⟩⟩

end SharpLint.Node
