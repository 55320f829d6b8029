import Mathlib.Data.List.Flatten
import Mathlib.Logic.Relation
import SharpLint.Proofs.Tree.Lookup

/-!
# The nodes of a tree

`descendants` lists the nodes of a tree, each of them once:

    n ∈ (root t).descendants ↔ n.Inside t        (mem_descendants_root)
    n.descendants.Nodup                          (nodup_descendants)

The frames above a node tell it from the nodes below its siblings: they end with the frames above the
child on the way to it. Upwards there is one way only, so that going up through nodes with a property
ends at one node (`eq_of_under`).
-/

namespace SharpLint.Node

open SharpLint.Tree

variable {above : List Frame} {offset : Nat}

/-! ## Every node is listed -/

theorem mem_preorderOf_of_mem_childNodesFrom {n m : Node} {i offset : Nat} : (cs : List Tree) →
    m ∈ n.childNodesFrom i offset cs → m ∈ preorderOf n i offset cs
  | [], hm => nomatch hm
  | .token t :: cs, hm => List.mem_append_right _ (mem_preorderOf_of_mem_childNodesFrom cs hm)
  | .node k ds :: cs, hm => by
    rcases List.mem_cons.mp hm with rfl | hm
    · exact List.mem_append_left _ List.mem_cons_self
    · exact List.mem_append_right _ (mem_preorderOf_of_mem_childNodesFrom cs hm)

mutual

theorem child_mem_preorder {above : List Frame} {offset : Nat} {n m : Node}
    (hm : m ∈ n.childNodes) :
    (u : Tree) → n ∈ preorder above offset u → m ∈ preorder above offset u
  | .token _, hn => nomatch hn
  | .node k cs, hn => by
    rcases List.mem_cons.mp hn with rfl | hn
    · exact List.mem_cons_of_mem _ (mem_preorderOf_of_mem_childNodesFrom cs hm)
    · exact List.mem_cons_of_mem _ (child_mem_preorderOf hm cs hn)

theorem child_mem_preorderOf {p n m : Node} {i offset : Nat} (hm : m ∈ n.childNodes) :
    (cs : List Tree) → n ∈ preorderOf p i offset cs → m ∈ preorderOf p i offset cs
  | [], hn => nomatch hn
  | c :: cs, hn => by
    rcases List.mem_append.mp hn with hn | hn
    · exact List.mem_append_left _ (child_mem_preorder hm c hn)
    · exact List.mem_append_right _ (child_mem_preorderOf hm cs hn)

end

theorem self_mem_descendants (n : Node) : n ∈ n.descendants := by
  rw [descendants_eq]
  exact List.mem_cons_self

theorem child_mem_descendants {p n m : Node} (hn : n ∈ p.descendants) (hm : m ∈ n.childNodes) :
    m ∈ p.descendants := by
  rw [descendants_eq] at hn ⊢
  exact child_mem_preorder hm _ hn

theorem mem_descendants_root {t : Tree} {n : Node} :
    n ∈ (Node.root t).descendants ↔ n.Inside t := by
  refine ⟨.of_mem_descendants, fun h => ?_⟩
  induction h using Inside.rec_childNodes with
  | root => exact self_mem_descendants _
  | child n m _ hm ih => exact child_mem_descendants ih hm

theorem Inside.descendant {t : Tree} {n m : Node} (h : n.Inside t) (hm : m ∈ n.descendants) :
    m.Inside t :=
  forall_mem_descendants (P := (·.Inside t)) h (fun _ _ hp hq => Inside.child hp hq) m hm

/-! ## No node is listed twice -/

mutual

theorem suffix_of_mem_preorder {above : List Frame} {offset : Nat} {m : Node} :
    (u : Tree) → m ∈ preorder above offset u → above <:+ m.above
  | .token _, hm => nomatch hm
  | .node k cs, hm => by
    rcases List.mem_cons.mp hm with rfl | hm
    · exact List.suffix_refl above
    · obtain ⟨j, -, hsuffix⟩ := exists_frame_of_mem_preorderOf cs hm
      exact (List.suffix_cons _ above).trans hsuffix

/-- The frames above a node end with those above the child on the way to it. -/
theorem exists_frame_of_mem_preorderOf {n m : Node} {i offset : Nat} :
    (cs : List Tree) → m ∈ preorderOf n i offset cs →
      ∃ j, i ≤ j ∧ (n.frame j :: n.above) <:+ m.above
  | [], hm => nomatch hm
  | c :: cs, hm => by
    rcases List.mem_append.mp hm with hm | hm
    · exact ⟨i, Nat.le_refl i, suffix_of_mem_preorder c hm⟩
    · obtain ⟨j, hj, hsuffix⟩ := exists_frame_of_mem_preorderOf cs hm
      exact ⟨j, Nat.le_of_succ_le hj, hsuffix⟩

end

theorem eq_of_frames_suffix {n : Node} {i j : Nat} {frames : List Frame}
    (hi : (n.frame i :: n.above) <:+ frames) (hj : (n.frame j :: n.above) <:+ frames) : i = j := by
  have hsame : n.frame i :: n.above = n.frame j :: n.above :=
    (List.suffix_of_suffix_length_le hi hj (Nat.le_refl _)).eq_of_length rfl
  exact congrArg Frame.index (List.cons.inj hsame).1

mutual

theorem nodup_preorder (above : List Frame) (offset : Nat) :
    (u : Tree) → (preorder above offset u).Nodup
  | .token _ => List.nodup_nil
  | .node k cs => by
    refine List.nodup_cons.mpr ⟨fun hmem => ?_, nodup_preorderOf _ 0 offset cs⟩
    obtain ⟨j, -, hsuffix⟩ := exists_frame_of_mem_preorderOf cs hmem
    exact Nat.not_succ_le_self _ hsuffix.length_le

theorem nodup_preorderOf (n : Node) (i offset : Nat) :
    (cs : List Tree) → (preorderOf n i offset cs).Nodup
  | [] => List.nodup_nil
  | c :: cs => by
    refine List.nodup_append.mpr ⟨nodup_preorder _ offset c, nodup_preorderOf n (i + 1) _ cs, ?_⟩
    rintro m hm _ hm' rfl
    obtain ⟨j, hj, hsuffix⟩ := exists_frame_of_mem_preorderOf cs hm'
    exact Nat.ne_of_lt hj (eq_of_frames_suffix (suffix_of_mem_preorder c hm) hsuffix)

end

theorem nodup_descendants (n : Node) : n.descendants.Nodup := by
  rw [descendants_eq]
  exact nodup_preorder _ _ _

/-! ## Children -/

/-- A node comes first, and then what is below its children. -/
theorem descendants_eq_cons (n : Node) :
    n.descendants = n :: n.childNodes.flatMap descendants := by
  have hall : descendants = fun m => preorder m.above m.offset m.tree := funext descendants_eq
  rw [hall]
  exact preorder_eq_cons n

theorem nodup_childNodes (n : Node) : n.childNodes.Nodup := by
  have hchildren : List.Sublist (n.childNodes.flatMap fun m => [m])
      (n.childNodes.flatMap descendants) :=
    List.Sublist.flatMap_right _ fun m _ => List.singleton_sublist.mpr (self_mem_descendants m)
  rw [List.flatMap_singleton'] at hchildren
  have hnodup := nodup_descendants n
  rw [descendants_eq_cons, List.nodup_cons] at hnodup
  exact hnodup.2.sublist hchildren

/-! ## The way up -/

/-- The parent is `p`, and `p` has the property. -/
def Under (P : Node → Prop) (n p : Node) : Prop := n.parent? = some p ∧ P p

variable {P : Node → Prop}

theorem Under.of_mem_childNodes {n p : Node} (hn : n ∈ p.childNodes) (hp : P p) : Under P n p :=
  ⟨parent?_of_mem_childNodes hn, hp⟩

/-- What is around a node of a tree is in the tree. -/
theorem Inside.of_under {t : Tree} {n r : Node} (h : n.Inside t)
    (hr : Relation.ReflTransGen (Under P) n r) : r.Inside t := by
  induction hr with
  | refl => exact h
  | tail _ hstep ih => exact (ih.of_parent? hstep.1).1

/-- The way up through nodes with a property ends at one node. -/
theorem eq_of_under {n r s : Node} (hr : Relation.ReflTransGen (Under P) n r)
    (hs : Relation.ReflTransGen (Under P) n s) (hrtop : ∀ p, r.parent? = some p → ¬P p)
    (hstop : ∀ p, s.parent? = some p → ¬P p) : r = s := by
  have hunique : Relator.RightUnique (Under P) := fun n p q hp hq =>
    Option.some.inj (hp.1.symm.trans hq.1)
  rcases hr.total_of_right_unique hunique hs with hway | hway
  · rcases hway.cases_head with heq | ⟨p, hp, -⟩
    · exact heq
    · exact absurd hp.2 (hrtop p hp.1)
  · rcases hway.cases_head with heq | ⟨p, hp, -⟩
    · exact heq.symm
    · exact absurd hp.2 (hstop p hp.1)

end SharpLint.Node
