import Mathlib.Data.List.Nodup
import SharpLint.Proofs.Binding.Host
import SharpLint.Proofs.Repair.FormatCall
import SharpLint.Proofs.Tree.Descendants

/-!
# What is turned into text without a call

The nodes that are reported for this are the floating-point expressions of holes, and what stands
below a sum with text for its type, parentheses around it left out (`implicit_findings`). A sum is
looked at from the outermost sum of its chain only. So there are two things to show: from every sum,
the way up through sums ends at an outermost one, which then has the operand among its own
(`mem_operandsUpTo`); and from an operand, the way up through parentheses and then through sums ends
at one node only, so that no other one reports it (`eq_of_mem_implicitNodes`).
-/

namespace SharpLint.Rule.Formatting

open Relation (ReflTransGen)

variable {t : Tree} {b : Bindings}

/-- What has a floating-point type is no text. -/
theorem isConcatenation_of_isFloating {scope : Scope} {n : Node}
    (h : scope.bindings.isFloatingExpression n = true) : scope.bindings.isConcatenation n = false := by
  obtain ⟨info, hinfo, hfloat⟩ := (Option.any_eq_true _ _).mp h
  obtain ⟨r, -, rfl⟩ := Option.map_eq_some_iff.mp hinfo
  rw [Bindings.isConcatenation, hinfo, Option.any_some, Bool.and_eq_false_iff]
  refine .inr ?_
  unfold TypeInfo.isFloating TypeInfo.floatKind? TypeInfo.of at hfloat
  unfold TypeInfo.isString TypeInfo.of
  cases hspecial : r.special
  all_goals
    simp [hspecial, FloatKind.ofSpecial?] at hfloat ⊢

/-- Parentheses around the way up. -/
abbrev InParentheses : Node → Node → Prop := Node.Under (·.kind = .parenthesizedExpression)

/-- Sums around the way up. -/
abbrev InSum (b : Bindings) : Node → Node → Prop := Node.Under (b.isConcatenation · = true)

/-! ## Operands of a chain -/

theorem height_lt_of_mem_childNodes {n m : Node} (h : m ∈ n.childNodes) :
    m.tree.height < n.tree.height := by
  have hle (cs : List Tree) (c : Tree) (hc : c ∈ cs) : c.height ≤ Tree.heightOf cs := by
    induction cs with
    | nil => cases hc
    | cons d cs ih =>
      rw [Tree.heightOf]
      rcases List.mem_cons.mp hc with rfl | hc
      · exact Nat.le_max_left _ _
      · exact Nat.le_trans (ih hc) (Nat.le_max_right _ _)
  exact Nat.lt_succ_of_le (hle _ _ (Node.tree_mem_children h))

/-- The operands of a chain are the nodes below it, with sums between, that are no sums. -/
theorem mem_operandsUpTo {fuel : Nat} {n o : Node} (ho : o.Inside t) (hfuel : n.tree.height ≤ fuel) :
    o ∈ operandsUpTo b fuel n ↔ ReflTransGen (InSum b) o n ∧ b.isConcatenation o = false := by
  induction fuel generalizing n with
  | zero => exact absurd hfuel (Nat.not_succ_le_zero _)
  | succ fuel ih =>
    have hchild {c : Node} (hc : c ∈ n.childNodes) : c.tree.height ≤ fuel :=
      Nat.le_of_lt_succ (Nat.lt_of_lt_of_le (height_lt_of_mem_childNodes hc) hfuel)
    rw [operandsUpTo]
    split
    · rename_i hcat
      rw [List.mem_flatMap]
      constructor
      · rintro ⟨c, hc, hoc⟩
        obtain ⟨hway, hleaf⟩ := (ih (hchild hc)).mp hoc
        exact ⟨hway.tail (.of_mem_childNodes hc hcat), hleaf⟩
      · rintro ⟨hway, hleaf⟩
        rcases hway.cases_tail with rfl | ⟨c, hway, hstep⟩
        · rw [hcat] at hleaf
          cases hleaf
        · have hc : c ∈ n.childNodes := ((ho.of_under hway).of_parent? hstep.1).2
          exact ⟨c, hc, (ih (hchild hc)).mpr ⟨hway, hleaf⟩⟩
    · rename_i hcat
      rw [List.mem_singleton]
      constructor
      · rintro rfl
        exact ⟨.refl, Bool.eq_false_iff.mpr hcat⟩
      · rintro ⟨hway, -⟩
        rcases hway.cases_tail with rfl | ⟨c, -, hstep⟩
        · rfl
        · exact absurd hstep.2 hcat

theorem mem_operands {n o : Node} (ho : o.Inside t) :
    o ∈ operands b n ↔ ReflTransGen (InSum b) o n ∧ b.isConcatenation o = false :=
  mem_operandsUpTo ho (Nat.le_refl _)

theorem operandsUpTo_sublist (fuel : Nat) (n : Node) :
    List.Sublist (operandsUpTo b fuel n) n.descendants := by
  induction fuel generalizing n with
  | zero => exact List.singleton_sublist.mpr n.self_mem_descendants
  | succ fuel ih =>
    rw [operandsUpTo]
    split
    · rw [Node.descendants_eq_cons]
      exact (List.Sublist.flatMap_right _ fun m _ => ih m).cons n
    · exact List.singleton_sublist.mpr n.self_mem_descendants

theorem nodup_operands (n : Node) : (operands b n).Nodup :=
  n.nodup_descendants.sublist (operandsUpTo_sublist _ n)

/-- Around every sum there is an outermost one. -/
theorem exists_outermost {p : Node} (hp : p.Inside t) (hcat : b.isConcatenation p = true) :
    ∃ r : Node, r.Inside t ∧ ReflTransGen (InSum b) p r ∧ isOutermost b r = true := by
  induction hp using Node.Inside.rec_childNodes with
  | root =>
    refine ⟨_, .root t, .refl, ?_⟩
    rw [isOutermost, hcat, Node.parent?, Node.above_root]
    rfl
  | child q p hq hp ih =>
    cases hqcat : b.isConcatenation q with
    | true =>
      obtain ⟨r, hr, hway, hout⟩ := ih hqcat
      exact ⟨r, hr, .head (.of_mem_childNodes hp hqcat) hway, hout⟩
    | false =>
      refine ⟨p, hq.child hp, .refl, ?_⟩
      rw [isOutermost, hcat, Node.parent?_of_mem_childNodes hp, Option.any_some, hqcat]
      rfl

theorem inParentheses_unparenthesizeUpTo (fuel : Nat) (n : Node) :
    ReflTransGen InParentheses (n.unparenthesizeUpTo fuel) n := by
  induction fuel generalizing n with
  | zero => exact .refl
  | succ fuel ih =>
    rw [Node.unparenthesizeUpTo]
    split
    · rename_i hkind
      split
      · rename_i inner hinner
        exact (ih inner).tail (.of_mem_childNodes (List.mem_of_getElem? hinner) hkind)
      · exact .refl
    · exact .refl

/-! ## Who reports a node -/

/-- The node, in parentheses or not, is an operand of the chain that starts at `r`. -/
structure OperandOf (b : Bindings) (r n operand : Node) : Prop where
  outermost : isOutermost b r = true
  inner : operand.unparenthesize = n
  parentheses : ReflTransGen InParentheses n operand
  sum : ∃ p, operand.parent? = some p ∧ b.isConcatenation p = true
  chain : ReflTransGen (InSum b) operand r

theorem kind_of_isConcatenation {p : Node} (h : b.isConcatenation p = true) :
    p.kind = .addExpression :=
  beq_iff_eq.mp (Bool.and_eq_true_iff.mp h).1

/-- The chain that a node belongs to, and its place in it, are determined by the node. -/
theorem OperandOf.unique {r r' n o o' : Node} (h : OperandOf b r n o) (h' : OperandOf b r' n o') :
    o = o' ∧ r = r' := by
  have hnoParentheses {o : Node} (hsum : ∃ p, o.parent? = some p ∧ b.isConcatenation p = true) :
      ∀ p, o.parent? = some p → ¬p.kind = .parenthesizedExpression := by
    obtain ⟨q, hq, hcat⟩ := hsum
    intro p hp hkind
    rw [hq, Option.some.injEq] at hp
    rw [← hp, kind_of_isConcatenation hcat] at hkind
    cases hkind
  have hnoSum {r : Node} (hout : isOutermost b r = true) :
      ∀ p, r.parent? = some p → ¬b.isConcatenation p = true := by
    intro p hp hcat
    rw [isOutermost, hp, Option.any_some, hcat, Bool.and_eq_true] at hout
    exact absurd hout.2 (by decide)
  obtain rfl : o = o' := Node.eq_of_under h.parentheses h'.parentheses (hnoParentheses h.sum)
    (hnoParentheses h'.sum)
  exact ⟨rfl, Node.eq_of_under h.chain h'.chain (hnoSum h.outermost) (hnoSum h'.outermost)⟩

theorem operandOf_of_mem_operands {r o : Node} (hr : r.Inside t) (hout : isOutermost b r = true)
    (ho : o ∈ operands b r) :
    OperandOf b r o.unparenthesize o ∧ o.Inside t ∧ b.isConcatenation o = false := by
  have hinside : o.Inside t := hr.descendant ((operandsUpTo_sublist _ r).subset ho)
  obtain ⟨hway, hleaf⟩ := (mem_operands hinside).mp ho
  refine ⟨⟨hout, rfl, inParentheses_unparenthesizeUpTo _ o, ?_, hway⟩, hinside, hleaf⟩
  -- the chain starts with a sum, so that it is not the operand itself
  rcases hway.cases_head with rfl | ⟨p, hp, -⟩
  · rw [(Bool.and_eq_true_iff.mp hout).1] at hleaf
    cases hleaf
  · exact ⟨p, hp⟩

theorem mem_floatingOperands {r n : Node} (hr : r.Inside t) :
    n ∈ floatingOperands b r ↔ b.isFloatingExpression n = true ∧
      ∃ o, OperandOf b r n o ∧ o.Inside t ∧ b.isConcatenation o = false := by
  unfold floatingOperands
  split
  · rename_i hout
    rw [List.mem_filter, List.mem_map, and_comm, and_congr_right_iff]
    refine fun _ => exists_congr fun o => ?_
    constructor
    · rintro ⟨ho, rfl⟩
      exact operandOf_of_mem_operands hr hout ho
    · rintro ⟨ho, hinside, hleaf⟩
      exact ⟨(mem_operands hinside).mpr ⟨ho.chain, hleaf⟩, ho.inner⟩
  · rename_i hout
    constructor
    · rintro ⟨⟩
    · rintro ⟨-, o, ho, -⟩
      exact absurd ho.outermost hout

/-- The hole whose expression is reported. -/
theorem mem_floatingHoles {r n : Node} (hkind : r.kind = .interpolatedStringExpression) :
    n ∈ floatingHoles b r ↔ b.isFloatingExpression n = true ∧
      ∃ h ∈ r.childNodes, h.kind = .interpolation ∧
        h.hole?.bind Node.HoleParts.expression = some n := by
  rw [floatingHoles, Node.holes?, if_pos hkind, Option.getD_some, List.mem_filter,
    List.mem_filterMap, and_comm, and_congr_right_iff]
  refine fun _ => exists_congr fun h => ?_
  rw [List.mem_filter, beq_iff_eq, and_assoc]

/-- The expression of a hole is a child of it. -/
theorem parent?_of_hole {h n : Node} (hn : h.hole?.bind Node.HoleParts.expression = some n) :
    n.parent? = some h := by
  obtain ⟨parts, hparts, hexpression⟩ := Option.bind_eq_some_iff.mp hn
  unfold Node.hole? at hparts
  split at hparts
  · obtain rfl := Option.some.inj hparts
    have hchild := Option.eq_some_of_filter_eq_some hexpression
    exact Node.parent?_of_mem_childNodes (List.mem_of_getElem? hchild)
  · cases hparts

/-- The nodes that are reported at a node for being turned into text without a call. -/
def implicitNodes (b : Bindings) (n : Node) : List Node :=
  match n.kind with
  | .addExpression => floatingOperands b n
  | .interpolatedStringExpression => floatingHoles b n
  | _ => []

theorem mem_implicitNodes {r n : Node} (hr : r.Inside t) :
    n ∈ implicitNodes b r ↔ b.isFloatingExpression n = true ∧
      ((∃ o, OperandOf b r n o ∧ o.Inside t ∧ b.isConcatenation o = false) ∨
        r.kind = .interpolatedStringExpression ∧ ∃ h ∈ r.childNodes, h.kind = .interpolation ∧
          h.hole?.bind Node.HoleParts.expression = some n) := by
  have hnoChain (hkind : r.kind ≠ .addExpression) : ¬∃ o, OperandOf b r n o ∧ o.Inside t ∧
      b.isConcatenation o = false := by
    rintro ⟨o, ho, -⟩
    exact hkind (kind_of_isConcatenation (Bool.and_eq_true_iff.mp ho.outermost).1)
  unfold implicitNodes
  split
  · rename_i hkind
    rw [mem_floatingOperands hr, hkind]
    simp
  · rename_i hkind
    rw [mem_floatingHoles hkind]
    simp [hnoChain (by rw [hkind]; decide), hkind]
  · rename_i hadd hstring
    constructor
    · rintro ⟨⟩
    · rintro ⟨-, hchain | ⟨hkind, -⟩⟩
      · exact (hnoChain hadd hchain).elim
      · exact (hstring hkind).elim

/-- No other node reports the same one. -/
theorem eq_of_mem_implicitNodes {r r' n : Node} (hr : r.Inside t) (hr' : r'.Inside t)
    (hn : n ∈ implicitNodes b r) (hn' : n ∈ implicitNodes b r') : r = r' := by
  -- a hole and a sum differ in what stands around the node
  have hapart {h r o : Node} (hhole : h.hole?.bind Node.HoleParts.expression = some n)
      (hkind : h.kind = .interpolation) (ho : OperandOf b r n o) : False := by
    have hparent := parent?_of_hole hhole
    rcases ho.parentheses.cases_head with rfl | ⟨p, hp, -⟩
    · obtain ⟨p, hp, hcat⟩ := ho.sum
      rw [hparent, Option.some.injEq] at hp
      rw [hp, kind_of_isConcatenation hcat] at hkind
      cases hkind
    · obtain ⟨hpn, hpkind⟩ := hp
      rw [hparent, Option.some.injEq] at hpn
      rw [hpn, hpkind] at hkind
      cases hkind
  obtain ⟨-, ⟨o, ho, -⟩ | ⟨-, h, hmem, hkind, hhole⟩⟩ := (mem_implicitNodes hr).mp hn
  · obtain ⟨-, ⟨o', ho', -⟩ | ⟨-, h', -, hkind', hhole'⟩⟩ := (mem_implicitNodes hr').mp hn'
    · exact (ho.unique ho').2
    · exact (hapart hhole' hkind' ho).elim
  · obtain ⟨-, ⟨o', ho', -⟩ | ⟨-, h', hmem', hkind', hhole'⟩⟩ := (mem_implicitNodes hr').mp hn'
    · exact (hapart hhole hkind ho').elim
    · obtain rfl : h = h' :=
        Option.some.inj ((parent?_of_hole hhole).symm.trans (parent?_of_hole hhole'))
      exact Option.some.inj ((Node.parent?_of_mem_childNodes hmem).symm.trans
        (Node.parent?_of_mem_childNodes hmem'))

theorem nodup_implicitNodes {r : Node} (hr : r.Inside t) : (implicitNodes b r).Nodup := by
  unfold implicitNodes
  split
  · unfold floatingOperands
    split
    · rename_i hout
      refine (List.Nodup.map_on (fun o ho o' ho' heq => ?_) (nodup_operands r)).filter _
      obtain ⟨hoperand, -⟩ := operandOf_of_mem_operands hr hout ho
      obtain ⟨hoperand', -⟩ := operandOf_of_mem_operands hr hout ho'
      rw [heq] at hoperand
      exact (hoperand.unique hoperand').1
    · exact List.nodup_nil
  · rename_i hkind
    rw [floatingHoles, Node.holes?, if_pos hkind, Option.getD_some]
    refine (List.Nodup.filterMap (fun h h' n hn hn' => ?_) (r.nodup_childNodes.filter _)).filter _
    exact Option.some.inj ((parent?_of_hole hn).symm.trans (parent?_of_hole hn'))
  · exact List.nodup_nil

/-! ## The findings of a document -/

/-- The node stands below a sum with text for its type, with or without parentheses around it. -/
def IsTextOperand (b : Bindings) (t : Tree) (n : Node) : Prop :=
  ∃ p c : Node, p.Inside t ∧ p.kind = .addExpression ∧
    (b.typeOf? p).any TypeInfo.isString = true ∧ c ∈ p.childNodes ∧ n = c.unparenthesize

/-- The findings at a node for what is turned into text without a call. -/
theorem filter_check (b : Bindings) (n : Node) :
    (check b n).filter (·.descriptor.code == "NG1006") =
      (implicitNodes b n).map (.aboutText implicitDescriptor) := by
  have hall (ns : List Node) : (ns.map (Finding.aboutText implicitDescriptor)).filter
      (·.descriptor.code == "NG1006") = ns.map (.aboutText implicitDescriptor) := by
    rw [List.filter_eq_self]
    intro f hf
    obtain ⟨m, -, rfl⟩ := List.mem_map.mp hf
    rfl
  unfold check implicitNodes
  split
  · rename_i hkind
    rw [hkind]
    split
    · rfl
    · rfl
  · rename_i hkind
    rw [hkind]
    exact hall _
  · rename_i hkind
    rw [hkind]
    exact hall _
  · rename_i hadd hstring
    split
    · exact (hadd ‹_›).elim
    · exact (hstring ‹_›).elim
    · rfl

/-- Some node reports it exactly if it is the expression of a hole or stands below a sum. -/
theorem exists_mem_implicitNodes {n : Node}
    (hb : ∀ m, b.isFloatingExpression m = true → b.isConcatenation m = false) :
    (∃ r : Node, r.Inside t ∧ n ∈ implicitNodes b r) ↔
      b.isFloatingExpression n = true ∧ (IsInHole t n ∨ IsTextOperand b t n) := by
  constructor
  · rintro ⟨r, hr, hn⟩
    obtain ⟨hfloat, ⟨o, ho, hinside, -⟩ | ⟨hkind, h, hmem, hhole⟩⟩ := (mem_implicitNodes hr).mp hn
    · obtain ⟨p, hp, hcat⟩ := ho.sum
      obtain ⟨hpinside, hmem⟩ := hinside.of_parent? hp
      obtain ⟨hkind, htext⟩ := Bool.and_eq_true_iff.mp hcat
      exact ⟨hfloat, .inr ⟨p, o, hpinside, beq_iff_eq.mp hkind, htext, hmem, ho.inner.symm⟩⟩
    · exact ⟨hfloat, .inl ⟨r, h, hr, hkind, hmem, hhole⟩⟩
  · rintro ⟨hfloat, ⟨r, h, hr, hkind, hmem, hhole⟩ | ⟨p, c, hp, hkind, htext, hc, rfl⟩⟩
    · exact ⟨r, hr, (mem_implicitNodes hr).mpr ⟨hfloat, .inr ⟨hkind, h, hmem, hhole⟩⟩⟩
    · have hcat : b.isConcatenation p = true :=
        Bool.and_eq_true_iff.mpr ⟨beq_iff_eq.mpr hkind, htext⟩
      -- an operand that is a sum itself has no parentheses, and text is no number
      have hleaf : b.isConcatenation c = false := by
        rw [Bool.eq_false_iff]
        intro hccat
        have hself : c.unparenthesize = c := by
          have hheight : c.tree.height = Tree.heightOf c.children + 1 := rfl
          rw [Node.unparenthesize, hheight, Node.unparenthesizeUpTo,
            if_neg (by rw [kind_of_isConcatenation hccat]; decide)]
        rw [hself] at hfloat
        rw [hb c hfloat] at hccat
        cases hccat
      obtain ⟨r, hr, hway, hout⟩ := exists_outermost hp hcat
      refine ⟨r, hr, (mem_implicitNodes hr).mpr ⟨hfloat, .inl ⟨c, ?_, hp.child hc, hleaf⟩⟩⟩
      exact ⟨hout, rfl, inParentheses_unparenthesizeUpTo _ c,
        ⟨p, Node.parent?_of_mem_childNodes hc, hcat⟩, .head (.of_mem_childNodes hc hcat) hway⟩

/-- A reported node has text, and its parent has more. -/
theorem tight_of_mem_implicitNodes (ht : t.Sound) {r n : Node} (hr : r.Inside t)
    (hn : n ∈ implicitNodes b r) : n.Inside t ∧ n.tree.HasWord ∧ n.Tight := by
  unfold implicitNodes at hn
  split at hn
  · obtain ⟨hoperand, hfloat⟩ := of_mem_floatingOperands hr hn
    obtain ⟨hword, htight, -⟩ := Repair.FormatCall.sited_operand ht hoperand hfloat
    exact ⟨hoperand.inside, hword, htight⟩
  · rename_i hkind
    obtain ⟨hhole, hfloat⟩ := of_mem_floatingHoles hr hkind hn
    obtain ⟨hinside, -, hword, htight, -⟩ := Repair.FormatCall.sited_hole ht hhole hfloat
    exact ⟨hinside, hword, htight⟩
  · cases hn

/-- In a sound tree each node is reported once, and under a span of its own. -/
theorem exists_implicit (ht : t.Sound)
    (hb : ∀ m, b.isFloatingExpression m = true → b.isConcatenation m = false) :
    ∃ nodes : List Node,
      ((Node.root t).descendants.flatMap (check b)).filter (·.descriptor.code == "NG1006") =
        nodes.map (.aboutText implicitDescriptor) ∧
      nodes.Nodup ∧ (nodes.map Node.span).Nodup ∧
      ∀ n, n ∈ nodes ↔ n ∈ (Node.root t).descendants ∧ b.isFloatingExpression n = true ∧
        (IsInHole t n ∨ IsTextOperand b t n) := by
  have hinside {r : Node} (hr : r ∈ (Node.root t).descendants) : r.Inside t :=
    Node.mem_descendants_root.mp hr
  have hnodup : ((Node.root t).descendants.flatMap (implicitNodes b)).Nodup := by
    refine List.nodup_flatMap.mpr ⟨fun r hr => nodup_implicitNodes (hinside hr), ?_⟩
    refine (Node.nodup_descendants _).imp_of_mem fun {r s} hr hs hne n hn hn' => ?_
    exact hne (eq_of_mem_implicitNodes (hinside hr) (hinside hs) hn hn')
  refine ⟨(Node.root t).descendants.flatMap (implicitNodes b), ?_, hnodup, ?_, fun n => ?_⟩
  · rw [List.filter_flatMap, List.map_flatMap]
    exact congrArg ((Node.root t).descendants.flatMap ·) (funext fun n => filter_check b n)
  · -- a reported node is found by its span
    have hfound (n : Node) (hn : n ∈ (Node.root t).descendants.flatMap (implicitNodes b)) :
        (Node.root t).coveringNode n.span = n := by
      obtain ⟨r, hr, hn⟩ := List.mem_flatMap.mp hn
      obtain ⟨hn, hword, htight⟩ := tight_of_mem_implicitNodes ht (hinside hr) hn
      exact hn.coveringNode_eq (hn.sound ht) hword htight
    refine List.Nodup.map_on (fun n hn m hm hspan => ?_) hnodup
    rw [← hfound n hn, hspan, hfound m hm]
  · rw [List.mem_flatMap, ← exists_mem_implicitNodes hb]
    constructor
    · rintro ⟨r, hr, hn⟩
      have hplace := tight_of_mem_implicitNodes ht (hinside hr) hn
      exact ⟨Node.mem_descendants_root.mpr hplace.1, r, hinside hr, hn⟩
    · rintro ⟨-, r, hr, hn⟩
      exact ⟨r, Node.mem_descendants_root.mpr hr, hn⟩

/-- The findings in a document about what is turned into text without a call: they are about the
floating-point expressions of holes and the floating-point operands of sums with text for their
types, one finding for each of these nodes, and no two of them have the same span. -/
theorem implicit_findings {sources : List (String × String)} {w : Workspace}
    (hw : Workspace.ofSources sources = .ok w) {d : Document} (hd : d ∈ w.snapshot.documents) :
    ∃ b, w.host.bindings? d.id = some b ∧ ∃ nodes : List Node,
      (d.rootNode.descendants.flatMap (check b)).filter (·.descriptor.code == "NG1006") =
        nodes.map (.aboutText implicitDescriptor) ∧
      nodes.Nodup ∧ (nodes.map Node.span).Nodup ∧
      ∀ n, n ∈ nodes ↔ n ∈ d.rootNode.descendants ∧ b.isFloatingExpression n = true ∧
        (IsInHole d.root n ∨ IsTextOperand b d.root n) := by
  have hsound := Workspace.sound_snapshot hw
  have hbindings := Workspace.bindings?_host hd
  rw [← (Workspace.ofSources_eq_ok hw).2] at hbindings
  exact ⟨_, hbindings, exists_implicit (hsound.root d hd) fun _ => isConcatenation_of_isFloating⟩

/-- A sum of numbers and a sum in parentheses among the operands, and a string with two holes. -/
def mixedSource : String :=
  "class C \x7b string F(float x, double y) \x7b return \"a\" + x + (1 + y) + (\"b\" + (y))"
    ++ " + $\"\x7bx\x7d\x7b1\x7d\"; \x7d \x7d"

theorem implicit_findings_mixedSource :
    ∃ w, Workspace.ofSources [("A.cs", mixedSource)] = .ok w ∧ ∃ d ∈ w.snapshot.documents,
      ∃ b, w.host.bindings? d.id = some b ∧ ∃ nodes : List Node,
        (d.rootNode.descendants.flatMap (check b)).filter (·.descriptor.code == "NG1006") =
          nodes.map (.aboutText implicitDescriptor) ∧
        nodes.Nodup ∧ (nodes.map Node.span).Nodup ∧
        ∀ n, n ∈ nodes ↔ n ∈ d.rootNode.descendants ∧ b.isFloatingExpression n = true ∧
          (IsInHole d.root n ∨ IsTextOperand b d.root n) := by
  have hread : ((Workspace.ofSources [("A.cs", mixedSource)]).toOption.any
      fun w => !w.snapshot.documents.isEmpty) = true := by
    decide +kernel
  cases hw : Workspace.ofSources [("A.cs", mixedSource)] with
  | error e => rw [hw] at hread; cases hread
  | ok w =>
    rw [hw] at hread
    have hne : w.snapshot.documents ≠ [] := by simpa [Except.toOption] using hread
    obtain ⟨d, hd⟩ := List.exists_mem_of_ne_nil _ hne
    exact ⟨w, rfl, d, hd, implicit_findings hw hd⟩

/-- What is found in it. -/
example : (Workspace.ofSources [("A.cs", mixedSource)]).toOption.map (fun w =>
    w.snapshot.documents.flatMap fun d => ((w.host.bindings? d.id).map fun b =>
      (d.rootNode.descendants.flatMap (check b)).flatMap Finding.args).getD []) =
    some ["x", "1 + y", "y", "x"] := by
  decide +kernel

end SharpLint.Rule.Formatting
