import SharpLint.Proofs.Tree.Nested

/-!
# What a search by span finds

The full spans that hold some bytes belong to nodes inside one another. A search for the bytes passes
all of these nodes and no other (`mem_pathTo_iff`), from the outside in (`pairwise_pathTo`). So the
first of them that has a property is the outermost node of the tree with this property, and the last
one is the innermost.

    (root t).findNode? target kind = some n   ↔ n is the outermost node with this span and kind
    (root t).coveringNode target              the outermost node with this span, if there is one,
                                              else the innermost whose full span holds it
                                                                              (search_outermost)

The target has to hold bytes. An empty one can stand at the end of one child and at the start of the
next, and then the search goes down one of two ways.
-/

namespace SharpLint.Node

open SharpLint.Tree

/-! ## The way of a search -/

mutual

/-- On the way of a search each node is below those before it. -/
theorem pairwise_descent (target : Span) (above : List Frame) (offset : Nat) : (u : Tree) →
    (descent target above offset u).Pairwise fun a b => b ∈ a.descendants
  | .token _ => .nil
  | .node k cs => by
    rw [descent, List.pairwise_cons]
    constructor
    · intro b hb
      rw [descendants_eq]
      exact List.mem_cons_of_mem _ (mem_preorderOf_of_mem_descentOf cs hb)
    · exact pairwise_descentOf target _ 0 offset cs

theorem pairwise_descentOf (target : Span) (n : Node) (i offset : Nat) : (cs : List Tree) →
    (descentOf target n i offset cs).Pairwise fun a b => b ∈ a.descendants
  | [] => .nil
  | .token t :: cs => pairwise_descentOf target n (i + 1) (offset + t.fullWidth) cs
  | .node k ds :: cs => by
    rw [descentOf]
    split
    · exact pairwise_descent target _ offset (.node k ds)
    · exact pairwise_descentOf target n (i + 1) _ cs

end

theorem pairwise_pathTo (n : Node) (target : Span) :
    (n.pathTo target).Pairwise fun a b => b ∈ a.descendants := by
  unfold pathTo
  split
  · exact pairwise_descent target n.above n.offset n.tree
  · exact .nil

/-- A search for bytes passes exactly the nodes whose full spans hold them. -/
theorem mem_pathTo_iff {t : Tree} {target : Span} (ht : target.start < target.stop) {n : Node} :
    n ∈ (root t).pathTo target ↔
      n ∈ (root t).descendants ∧ n.fullSpan.contains target = true := by
  constructor
  · intro hn
    unfold pathTo at hn
    split at hn
    · rename_i hroot
      constructor
      · rw [descendants_eq]
        exact mem_preorder_of_mem_descent (root t).tree hn
      · exact contains_of_mem_descent (root t).tree hroot hn
    · cases hn
  · rintro ⟨hn, hspan⟩
    rw [(Inside.of_mem_descendants hn).pathTo_eq ht hspan]
    exact List.mem_append_right _ List.mem_cons_self

/-- The nodes with a span have it in their full spans as well. -/
theorem mem_pathTo_span {t : Tree} {n : Node} (hn : n ∈ (root t).descendants)
    (hspan : n.span.start < n.span.stop) : n ∈ (root t).pathTo n.span :=
  (mem_pathTo_iff hspan).mpr ⟨hn, contains_span n⟩

/-! ## Outermost and innermost nodes -/

/-- A node of the tree with the property; all nodes with it are this one or below it. -/
structure Outermost (t : Tree) (P : Node → Prop) (n : Node) : Prop where
  mem : n ∈ (root t).descendants
  holds : P n
  below : ∀ m ∈ (root t).descendants, P m → m ∈ n.descendants

/-- A node of the tree with the property, and the same as or below all nodes with it. -/
structure Innermost (t : Tree) (P : Node → Prop) (n : Node) : Prop where
  mem : n ∈ (root t).descendants
  holds : P n
  above : ∀ m ∈ (root t).descendants, P m → n ∈ m.descendants

/-- What is below a node has more frames above it. -/
theorem length_above_lt {n m : Node} (h : m ∈ n.descendants) (hne : m ≠ n) :
    n.above.length < m.above.length := by
  rw [descendants_eq] at h
  rcases List.mem_cons.mp h with rfl | h
  · exact absurd rfl hne
  · obtain ⟨j, -, hsuffix⟩ := exists_frame_of_mem_preorderOf n.children h
    exact hsuffix.length_le

theorem eq_of_mem_descendants {n m : Node} (hm : m ∈ n.descendants) (hn : n ∈ m.descendants) :
    n = m := by
  by_cases hne : n = m
  · exact hne
  · have hdown := length_above_lt hm fun h => hne h.symm
    have hup := length_above_lt hn hne
    omega

variable {t : Tree} {P : Node → Prop}

theorem Outermost.eq {n m : Node} (hn : Outermost t P n) (hm : Outermost t P m) : n = m :=
  eq_of_mem_descendants (hn.below m hm.mem hm.holds) (hm.below n hn.mem hn.holds)

/-- The first node with the property among nodes inside one another is the outermost one. -/
theorem outermost_of_find? {path : List Node} {test : Node → Bool} {n : Node}
    (hpath : path.Pairwise fun a b => b ∈ a.descendants)
    (hmem : ∀ m ∈ path, m ∈ (root t).descendants) (htest : ∀ m, test m = true ↔ P m)
    (hall : ∀ m ∈ (root t).descendants, P m → m ∈ path) (h : path.find? test = some n) :
    Outermost t P n := by
  obtain ⟨hn, before, behind, rfl, hbefore⟩ := List.find?_eq_some_iff_append.mp h
  refine ⟨hmem n (by simp), (htest n).mp hn, ?_⟩
  intro m hm hP
  have hfirst : m ∉ before := by
    intro hmem
    have := hbefore m hmem
    rw [(htest m).mpr hP] at this
    cases this
  rcases List.mem_append.mp (hall m hm hP) with hm | hm
  · exact absurd hm hfirst
  · rcases List.mem_cons.mp hm with rfl | hm
    · exact self_mem_descendants m
    · exact (List.pairwise_cons.mp (List.pairwise_append.mp hpath).2.1).1 m hm

/-- The last of all nodes with the property, which are inside one another, is the innermost one. -/
theorem innermost_of_getLast? {path : List Node} {n : Node}
    (hpath : path.Pairwise fun a b => b ∈ a.descendants)
    (hall : ∀ m, m ∈ path ↔ m ∈ (root t).descendants ∧ P m) (h : path.getLast? = some n) :
    Innermost t P n := by
  obtain ⟨before, rfl⟩ := List.getLast?_eq_some_iff.mp h
  obtain ⟨hn, hP⟩ := (hall n).mp (by simp)
  refine ⟨hn, hP, ?_⟩
  intro m hm hP
  rcases List.mem_append.mp ((hall m).mpr ⟨hm, hP⟩) with hm | hm
  · exact (List.pairwise_append.mp hpath).2.2 m hm n (by simp)
  · rw [List.mem_singleton.mp hm]
    exact self_mem_descendants n

/-! ## The two searches -/

variable {target : Span}

theorem outermost_of_findNode? (ht : target.start < target.stop) {kind : NodeKind} {n : Node}
    (h : (root t).findNode? target kind = some n) :
    Outermost t (fun m => m.kind = kind ∧ m.span = target) n := by
  refine outermost_of_find? (pairwise_pathTo (root t) target)
    (fun m hm => ((mem_pathTo_iff ht).mp hm).1) (fun m => ?_) (fun m hm hP => ?_) h
  · simp
  · obtain ⟨-, rfl⟩ := hP
    exact mem_pathTo_span hm ht

/-- A search for bytes finds a node, if there is one with the span and the kind. -/
theorem isSome_findNode? (ht : target.start < target.stop) {n : Node}
    (hn : n ∈ (root t).descendants) (hspan : n.span = target) :
    ((root t).findNode? target n.kind).isSome = true := by
  subst hspan
  exact List.find?_isSome.mpr ⟨n, mem_pathTo_span hn ht, by simp⟩

theorem findNode?_eq_some_iff (ht : target.start < target.stop) {kind : NodeKind} {n : Node} :
    (root t).findNode? target kind = some n ↔
      Outermost t (fun m => m.kind = kind ∧ m.span = target) n := by
  constructor
  · exact outermost_of_findNode? ht
  · intro hn
    obtain ⟨m, hm⟩ := Option.isSome_iff_exists.mp (isSome_findNode? ht hn.mem hn.holds.2)
    rw [hn.holds.1] at hm
    rw [hm, hn.eq (outermost_of_findNode? ht hm)]

theorem isSome_findNode?_iff (ht : target.start < target.stop) (kind : NodeKind) :
    ((root t).findNode? target kind).isSome = true ↔
      ∃ m ∈ (root t).descendants, m.kind = kind ∧ m.span = target := by
  constructor
  · intro h
    obtain ⟨n, hn⟩ := Option.isSome_iff_exists.mp h
    have houter := outermost_of_findNode? ht hn
    exact ⟨n, houter.mem, houter.holds⟩
  · rintro ⟨m, hm, rfl, hspan⟩
    exact isSome_findNode? ht hm hspan

/-- Where some node has the span, the outermost one covers it. -/
theorem outermost_coveringNode (ht : target.start < target.stop)
    (h : ∃ m ∈ (root t).descendants, m.span = target) :
    Outermost t (fun m => m.span = target) ((root t).coveringNode target) := by
  obtain ⟨m, hm, hspan⟩ := h
  have hsome : (((root t).pathTo target).find? (·.span == target)).isSome = true := by
    subst hspan
    exact List.find?_isSome.mpr ⟨m, mem_pathTo_span hm ht, by simp⟩
  obtain ⟨n, hn⟩ := Option.isSome_iff_exists.mp hsome
  have hcover : (root t).coveringNode target = n := by
    simp [coveringNode, hn]
  rw [hcover]
  refine outermost_of_find? (pairwise_pathTo (root t) target)
    (fun m hm => ((mem_pathTo_iff ht).mp hm).1) (fun m => by simp) (fun m hm hspan => ?_) hn
  subst hspan
  exact mem_pathTo_span hm ht

/-- Where no node has the span, the innermost one that holds it covers it. -/
theorem innermost_coveringNode (ht : target.start < target.stop)
    (hroot : (root t).fullSpan.contains target = true)
    (h : ∀ m ∈ (root t).descendants, m.span ≠ target) :
    Innermost t (fun m => m.fullSpan.contains target = true) ((root t).coveringNode target) := by
  have hnone : ((root t).pathTo target).find? (·.span == target) = none := by
    rw [List.find?_eq_none]
    intro m hm
    simpa using h m ((mem_pathTo_iff ht).mp hm).1
  -- the root holds the target, so that the search passes it at least
  have hmem : root t ∈ (root t).pathTo target :=
    (mem_pathTo_iff ht).mpr ⟨self_mem_descendants _, hroot⟩
  have hlast := List.getLast?_eq_some_getLast (List.ne_nil_of_mem hmem)
  refine innermost_of_getLast? (pairwise_pathTo (root t) target) (fun m => mem_pathTo_iff ht) ?_
  rw [coveringNode, hnone, Option.none_or, hlast]
  rfl

/-- In every tree, a search for bytes by span and kind finds the outermost node with them, and finds
none only if there is none. The node that covers the bytes is the outermost one with this span; if
there is none, it is the innermost one whose full span holds them. -/
theorem search_outermost (t : Tree) (target : Span) (ht : target.start < target.stop) :
    (∀ kind, ((root t).findNode? target kind).isSome = true ↔
      ∃ m ∈ (root t).descendants, m.kind = kind ∧ m.span = target) ∧
    (∀ kind n, (root t).findNode? target kind = some n ↔
      Outermost t (fun m => m.kind = kind ∧ m.span = target) n) ∧
    ((root t).fullSpan.contains target = true →
      ((∃ m ∈ (root t).descendants, m.span = target) →
        Outermost t (fun m => m.span = target) ((root t).coveringNode target)) ∧
      ((∀ m ∈ (root t).descendants, m.span ≠ target) →
        Innermost t (fun m => m.fullSpan.contains target = true)
          ((root t).coveringNode target))) := by
  refine ⟨isSome_findNode?_iff ht, fun kind n => findNode?_eq_some_iff ht, fun hroot => ?_⟩
  exact ⟨outermost_coveringNode ht, innermost_coveringNode ht hroot⟩

/-- A name between blanks as the only argument: an empty list of modifiers, an argument that has the
span of its name, and a bracket. -/
def spacedArgument : Tree :=
  .node .argumentList
    [.node .modifierList [],
      .node .argument [.node .identifierName [.token ⟨.identifier, "a", [.space], [.space]⟩]],
      .token (.ofKind .closeParen)]

/-- The argument covers the span that it shares with its name, and the list covers its own span. No
node has the span of the name with the blank in front, so that the name covers it. -/
theorem search_outermost_spacedArgument :
    (∃ n, (root spacedArgument).findNode? ⟨1, 2⟩ .identifierName = some n ∧
      Outermost spacedArgument (fun m => m.kind = .identifierName ∧ m.span = ⟨1, 2⟩) n) ∧
    (((root spacedArgument).coveringNode ⟨1, 2⟩).kind = .argument ∧
      Outermost spacedArgument (fun m => m.span = ⟨1, 2⟩)
        ((root spacedArgument).coveringNode ⟨1, 2⟩)) ∧
    (((root spacedArgument).coveringNode ⟨1, 4⟩).kind = .argumentList ∧
      Outermost spacedArgument (fun m => m.span = ⟨1, 4⟩)
        ((root spacedArgument).coveringNode ⟨1, 4⟩)) ∧
    (((root spacedArgument).coveringNode ⟨0, 2⟩).kind = .identifierName ∧
      Innermost spacedArgument (fun m => m.fullSpan.contains ⟨0, 2⟩ = true)
        ((root spacedArgument).coveringNode ⟨0, 2⟩)) := by
  obtain ⟨-, hfind, hcover⟩ := search_outermost spacedArgument ⟨1, 2⟩ (by decide)
  obtain ⟨-, -, hlist⟩ := search_outermost spacedArgument ⟨1, 4⟩ (by decide)
  obtain ⟨-, -, hinner⟩ := search_outermost spacedArgument ⟨0, 2⟩ (by decide)
  have hname : ∃ n, (root spacedArgument).findNode? ⟨1, 2⟩ .identifierName = some n := ⟨_, rfl⟩
  obtain ⟨n, hn⟩ := hname
  refine ⟨⟨n, hn, (hfind _ n).mp hn⟩, ⟨rfl, (hcover rfl).1 ?_⟩, ⟨rfl, (hlist rfl).1 ?_⟩,
    rfl, (hinner rfl).2 ?_⟩
  · decide
  · decide
  · decide

end SharpLint.Node
