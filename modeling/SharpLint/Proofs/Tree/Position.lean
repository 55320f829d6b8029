import Mathlib.Data.List.Induction
import SharpLint.Proofs.Tree.Nested

/-!
# Trees at paths

A path lists the numbers of the children to go through from the root. `t.at? path` is the tree there,
and `t.setAt path r` is `t` with `r` there:

    (t.setAt path r).at? path = some r             if `t` has something there      (at?_setAt_self)
    (t.setAt path r).at? other = t.at? other       if neither path goes on as the other does
                                                                               (at?_setAt_of_apart)
    n.replaceWith r = (root t).tree.setAt n.path r                            (replaceWith_eq_setAt)

`setAt` goes down from the root, and `replaceWith` builds frame after frame up to it. So the new tree
has the replacement where the node was and is the old one everywhere else, in text and in structure
(`replaceWith_exact`).
-/

namespace SharpLint

/-- The text with other characters for the bytes of a span; `none` if the span does not cut it between
characters. -/
def replaceBytes? (span : Span) (new cs : List Char) : Option (List Char) := do
  let (front, rest) ← splitAtByte? span.start cs
  let (_, behind) ← splitAtByte? (span.stop - span.start) rest
  some (front ++ new ++ behind)

theorem replaceBytes?_append (front old behind new : List Char) :
    replaceBytes? (Span.ofLength (byteLength front) (byteLength old)) new (front ++ old ++ behind) =
      some (front ++ new ++ behind) := by
  have hlength : byteLength front + byteLength old - byteLength front = byteLength old := by omega
  rw [replaceBytes?, List.append_assoc]
  simp only [Span.ofLength, hlength, splitAtByte?_append, Option.bind_eq_bind, Option.bind_some]

namespace Tree

/-! ## Going down a path -/

/-- The tree at a path; `none` where there is no such child. -/
def at? : Tree → List Nat → Option Tree
  | t, [] => some t
  | t, i :: path => t.children[i]?.bind fun c => c.at? path

/-- The tree with `r` at a path; the tree as it is where there is no such child. -/
def setAt : Tree → List Nat → Tree → Tree
  | _, [], r => r
  | .token t, _ :: _, _ => .token t
  | .node k cs, i :: path, r => .node k (cs.modify i fun c => c.setAt path r)

@[simp] theorem at?_nil (t : Tree) : t.at? [] = some t := by
  cases t with
  | token t => rfl
  | node k cs => rfl

theorem at?_cons (t : Tree) (i : Nat) (path : List Nat) :
    t.at? (i :: path) = t.children[i]?.bind fun c => c.at? path := by
  cases t with
  | token t => rfl
  | node k cs => rfl

@[simp] theorem setAt_nil (t r : Tree) : t.setAt [] r = r := by
  cases t with
  | token t => rfl
  | node k cs => rfl

theorem at?_append (t : Tree) (p q : List Nat) : t.at? (p ++ q) = (t.at? p).bind (·.at? q) := by
  induction p generalizing t with
  | nil => simp
  | cons i p ih =>
    rw [List.cons_append, at?_cons, at?_cons, Option.bind_assoc]
    exact congrArg _ (funext fun c => ih c)

theorem setAt_cons {k : NodeKind} {cs : List Tree} {i : Nat} {c : Tree} (h : cs[i]? = some c)
    (path : List Nat) (r : Tree) :
    (node k cs).setAt (i :: path) r = .node k (cs.set i (c.setAt path r)) := by
  obtain ⟨hlt, -⟩ := List.getElem?_eq_some_iff.mp h
  refine congrArg (node k) (List.ext_getElem? fun j => ?_)
  by_cases hij : i = j
  · rw [← hij, List.getElem?_modify_eq, h, List.getElem?_set_self hlt]
    rfl
  · rw [List.getElem?_modify_ne _ _ hij, List.getElem?_set_ne hij]

theorem exists_setAt_eq_node (k l : NodeKind) (cs ds : List Tree) (p : List Nat) :
    ∃ k' cs', (node k cs).setAt p (.node l ds) = .node k' cs' := by
  cases p with
  | nil => exact ⟨l, ds, rfl⟩
  | cons i p => exact ⟨k, _, rfl⟩

variable {t u r : Tree} {p q : List Nat}

theorem at?_cons_eq_some {i : Nat} (h : t.at? (i :: p) = some u) :
    ∃ k cs c, t = .node k cs ∧ cs[i]? = some c ∧ c.at? p = some u := by
  rw [at?_cons] at h
  obtain ⟨c, hc, hu⟩ := Option.bind_eq_some_iff.mp h
  cases t with
  | token t => cases hc
  | node k cs => exact ⟨k, cs, c, rfl, hc, hu⟩

/-- What is put at a path is found there. -/
theorem at?_setAt_self (h : t.at? p = some u) (r : Tree) : (t.setAt p r).at? p = some r := by
  induction p generalizing t with
  | nil => simp
  | cons i p ih =>
    obtain ⟨k, cs, c, rfl, hc, hu⟩ := at?_cons_eq_some h
    obtain ⟨hlt, -⟩ := List.getElem?_eq_some_iff.mp hc
    rw [setAt_cons hc, at?_cons, children, List.getElem?_set_self hlt]
    exact ih hu

/-- Above the path, the tree has the new one inside it. -/
theorem at?_setAt_above (h : t.at? p = some u) (q : List Nat) (r : Tree) :
    (t.setAt (p ++ q) r).at? p = some (u.setAt q r) := by
  induction p generalizing t with
  | nil => simp [Option.some.inj (h.symm.trans (at?_nil t))]
  | cons i p ih =>
    obtain ⟨k, cs, c, rfl, hc, hu⟩ := at?_cons_eq_some h
    obtain ⟨hlt, -⟩ := List.getElem?_eq_some_iff.mp hc
    rw [List.cons_append, setAt_cons hc, at?_cons, children, List.getElem?_set_self hlt]
    exact ih hu

theorem setAt_append (h : t.at? p = some u) (q : List Nat) (r : Tree) :
    t.setAt (p ++ q) r = t.setAt p (u.setAt q r) := by
  induction p generalizing t with
  | nil => simp [Option.some.inj (h.symm.trans (at?_nil t))]
  | cons i p ih =>
    obtain ⟨k, cs, c, rfl, hc, hu⟩ := at?_cons_eq_some h
    rw [List.cons_append, setAt_cons hc, setAt_cons hc, ih hu]

/-- Beside the path nothing changes. -/
theorem at?_setAt_of_apart (hpq : ¬ p <+: q) (hqp : ¬ q <+: p) :
    (t.setAt p r).at? q = t.at? q := by
  induction p generalizing t q with
  | nil => exact absurd List.nil_prefix hpq
  | cons i p ih =>
    obtain _ | ⟨j, q⟩ := q
    · exact absurd List.nil_prefix hqp
    cases t with
    | token t => rfl
    | node k cs =>
      rw [setAt, at?_cons, at?_cons, children, children]
      by_cases hij : i = j
      · rw [hij, List.cons_prefix_cons] at hpq
        rw [hij, List.cons_prefix_cons] at hqp
        rw [hij, List.getElem?_modify_eq, Option.map_eq_map, Option.bind_map]
        exact congrArg _ (funext fun c => ih (fun h => hpq ⟨rfl, h⟩) fun h => hqp ⟨rfl, h⟩)
      · rw [List.getElem?_modify_ne _ _ hij]

/-- The second tree has `r` at a path of the first one. Nodes above keep their kind and number of
children, and what is beside the path is the same tree. -/
structure PutAt (t : Tree) (path : List Nat) (r new : Tree) : Prop where
  here : new.at? path = some r
  above : ∀ p, p <+: path → p ≠ path → ∃ k cs cs', t.at? p = some (.node k cs) ∧
    new.at? p = some (.node k cs') ∧ cs'.length = cs.length
  beside : ∀ p, ¬ p <+: path → ¬ path <+: p → new.at? p = t.at? p

theorem putAt_setAt (h : t.at? p = some u) (r : Tree) : t.PutAt p r (t.setAt p r) where
  here := at?_setAt_self h r
  above := by
    rintro q ⟨_ | ⟨i, rest⟩, rfl⟩ hne
    · exact absurd (List.append_nil q).symm hne
    · rw [at?_append] at h
      obtain ⟨v, hv, hrest⟩ := Option.bind_eq_some_iff.mp h
      obtain ⟨k, cs, c, rfl, hc, -⟩ := at?_cons_eq_some hrest
      refine ⟨k, cs, cs.set i (c.setAt rest r), hv, ?_, List.length_set⟩
      rw [at?_setAt_above hv, setAt_cons hc]
  beside := fun _ hqp hpq => at?_setAt_of_apart hpq hqp

end Tree

/-! ## Text around a replaced node -/

/-- A node of a replacement is replaced in the tree around it. -/
theorem Replaced.trans {u r t t' : Tree} {above : List Frame} {offset : Nat} {p n : Node}
    (hp : Replaced u above offset t p t') (hn : Replaced r p.above p.offset p.tree n u) :
    ∃ t', Replaced r above offset t n t' := by
  induction hp with
  | here k cs => exact ⟨_, hn⟩
  | child left right _ ih =>
    obtain ⟨c', hc'⟩ := ih hn
    exact ⟨_, .child left right hc'⟩

namespace Node

open SharpLint.Tree

variable {t : Tree} {n m : Node}

theorem replaceWith_of_mem_childNodes (h : m ∈ n.childNodes) (r : Tree) :
    m.replaceWith r = n.replaceWith (.node n.kind (n.children.set m.index r)) := by
  obtain ⟨left, right, -, -, habove⟩ := exists_split_childNodes h
  rw [replaceWith, index, habove]
  rfl

/-- Every node of a tree can be replaced. -/
theorem Inside.replaced (h : n.Inside t) (r : Tree) :
    Replaced r [] 0 (Node.root t).tree n (n.replaceWith r) := by
  induction h using Inside.rec_childNodes generalizing r with
  | root =>
    cases t with
    | token t => exact .here _ _
    | node k cs => exact .here k cs
  | child p m _ hm ih =>
    obtain ⟨left, right, hchildren, hoffset, habove⟩ := exists_split_childNodes hm
    have hchild : Replaced r p.above p.offset p.tree m (.node p.kind (left ++ r :: right)) := by
      have hhere : Replaced r m.above m.offset m.tree m r := .here m.kind m.children
      rw [habove, hoffset, frame, hchildren] at hhere
      rw [tree, hchildren]
      exact .child left right hhere
    obtain ⟨t', ht'⟩ := (ih _).trans hchild
    rwa [ht'.replaceWith_eq]

/-! ## Nodes at paths -/

theorem Inside.at?_path (h : n.Inside t) : (Node.root t).tree.at? n.path = some n.tree := by
  induction h using Inside.rec_childNodes with
  | root => rw [path_root, at?_nil]
  | child p m _ hm ih =>
    have hchild : p.tree.children[m.index]? = some m.tree := children_getElem?_index hm
    rw [path_of_mem_childNodes hm, at?_append, ih, Option.bind_some, at?_cons, hchild,
      Option.bind_some, at?_nil]

theorem Inside.replaceWith_eq_setAt (h : n.Inside t) (r : Tree) :
    n.replaceWith r = (Node.root t).tree.setAt n.path r := by
  induction h using Inside.rec_childNodes generalizing r with
  | root => rw [path_root, setAt_nil, replaceWith, above_root, List.foldl_nil]
  | child p m hp hm ih =>
    have hchild : p.tree.setAt [m.index] r = .node p.kind (p.children.set m.index r) :=
      setAt_cons (children_getElem?_index hm) [] r
    rw [replaceWith_of_mem_childNodes hm, ih, path_of_mem_childNodes hm, setAt_append hp.at?_path,
      hchild]

/-- A child that is a node is among the child nodes. -/
theorem exists_childNode_of_getElem? {k : NodeKind} {ds : List Tree} {i : Nat}
    (h : n.children[i]? = some (.node k ds)) : ∃ m ∈ n.childNodes, m.index = i ∧ m.tree = .node k ds := by
  suffices hfrom : ∀ (cs : List Tree) (i j offset : Nat), cs[i]? = some (.node k ds) →
      ∃ m ∈ n.childNodesFrom j offset cs, m.index = j + i ∧ m.tree = .node k ds by
    simpa [childNodes] using hfrom n.children i 0 n.offset h
  intro cs
  induction cs with
  | nil =>
    intro i j offset h
    cases h
  | cons c cs ih =>
    intro i j offset h
    cases i with
    | zero =>
      obtain rfl : c = .node k ds := by simpa using h
      exact ⟨_, List.mem_cons_self, rfl, rfl⟩
    | succ i =>
      have hlater (offset : Nat) := ih i (j + 1) offset h
      rw [Nat.add_right_comm] at hlater
      cases c with
      | token t => exact hlater _
      | node l es =>
        obtain ⟨m, hm, hplace⟩ := hlater (offset + widthOf es)
        exact ⟨m, List.mem_cons_of_mem _ hm, hplace⟩

/-- A node of a tree is what is found at its path. -/
theorem exists_inside_of_at? {p : List Nat} {k : NodeKind} {cs : List Tree}
    (h : (root t).tree.at? p = some (.node k cs)) :
    ∃ n : Node, n.Inside t ∧ n.path = p ∧ n.tree = .node k cs := by
  induction p using List.reverseRecOn generalizing k cs with
  | nil => exact ⟨root t, .root t, path_root t, by simpa using h⟩
  | append_singleton p i ih =>
    rw [at?_append] at h
    obtain ⟨u, hu, hi⟩ := Option.bind_eq_some_iff.mp h
    obtain ⟨l, ds, c, rfl, hc, hnil⟩ := at?_cons_eq_some hi
    obtain ⟨q, hq, rfl, hqtree⟩ := ih hu
    obtain ⟨rfl, rfl⟩ := Tree.node.inj hqtree
    rw [at?_nil, Option.some.injEq] at hnil
    obtain ⟨m, hm, rfl, hmtree⟩ := exists_childNode_of_getElem? (hnil ▸ hc)
    exact ⟨m, hq.child hm, path_of_mem_childNodes hm, hmtree⟩

/-- The text of the new tree is the old one with other text for the bytes of the node, the replacement
is the node at the path of the old one, and everything else is as it was. -/
theorem replaceWith_exact {k : NodeKind} {cs : List Tree} (hn : n ∈ (root (.node k cs)).descendants)
    (l : NodeKind) (ds : List Tree) :
    let old := Tree.node k cs
    let r := Tree.node l ds
    let new := n.replaceWith r
    old.at? n.path = some n.tree ∧
      replaceBytes? n.fullSpan r.fullChars old.fullChars = some new.fullChars ∧
      old.PutAt n.path r new ∧
      ∃ m ∈ (root new).descendants, m.path = n.path ∧ m.tree = r := by
  intro old r new
  have hinside := mem_descendants_root.mp hn
  have hpath : old.at? n.path = some n.tree := hinside.at?_path
  have hnew : new = old.setAt n.path r := hinside.replaceWith_eq_setAt r
  refine ⟨hpath, ?_, hnew ▸ putAt_setAt hpath r, ?_⟩
  · obtain ⟨pre, post, hold, hnew, hoffset⟩ := (hinside.replaced r).exists_split
    rw [fullSpan, hoffset, Nat.zero_add, width_eq_byteLength, hnew, ← replaceBytes?_append, ← hold]
    rfl
  · obtain ⟨k', cs', hnode⟩ := exists_setAt_eq_node k l cs ds n.path
    have hat : (root new).tree.at? n.path = some r := by
      rw [hnew, hnode, root, tree, ← hnode]
      exact at?_setAt_self hpath r
    obtain ⟨m, hm, hmpath, hmtree⟩ := exists_inside_of_at? hat
    exact ⟨m, mem_descendants_root.mpr hm, hmpath, hmtree⟩

/-- `(x+y)` -/
def sampleGroup : Tree :=
  .node .parenthesizedExpression
    [.token (.ofKind .openParen),
      .node .addExpression
        [.node .identifierName [.token (.bare .identifier "x")], .token (.ofKind .plus),
          .node .identifierName [.token (.bare .identifier "y")]],
      .token (.ofKind .closeParen)]

/-- `rest` -/
def sampleRest : Tree := .node .identifierName [.token (.bare .identifier "rest")]

theorem replaceWith_exact_sampleGroup :
    ∃ n ∈ (root sampleGroup).descendants, n.path = [1, 2] ∧
      (n.replaceWith sampleRest).fullText = "(x+rest)" ∧
      replaceBytes? n.fullSpan sampleRest.fullChars sampleGroup.fullChars =
        some (n.replaceWith sampleRest).fullChars ∧
      sampleGroup.PutAt [1, 2] sampleRest (n.replaceWith sampleRest) := by
  obtain ⟨n, hn, hpath, hnew⟩ : ∃ n ∈ (root sampleGroup).descendants, n.path = [1, 2] ∧
      (n.replaceWith sampleRest).fullText = "(x+rest)" := by decide +kernel
  obtain ⟨-, htext, hput, -⟩ :=
    replaceWith_exact hn .identifierName [.token (.bare .identifier "rest")]
  exact ⟨n, hn, hpath, hnew, htext, hpath ▸ hput⟩

end Node

end SharpLint
