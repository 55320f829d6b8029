import SharpLint.Proofs.Grammar.Operators
import SharpLint.Proofs.Grammar.RankUnit
import SharpLint.Proofs.Tree.Parts

/-!
# Operators group by precedence

In the tree of a text, the left operand of a binary operator binds at least as tightly as the operator
and the right operand binds more tightly; only `??` and assignments group to the right
(`grouped_parse`).

The loop of `binary` holds one operand. If that is an operator's node itself, it binds at least as
tightly as the operator that comes next: the right operand of each round has taken everything that
binds more tightly than its sign, so what comes behind binds at most as tightly as the node of the
round (`BindsBefore`).
-/

namespace SharpLint

open Production SharpLint.Tree Grammar

/-! ## Operands -/

/-- An operator of the kind groups with operands of the kinds `left` and `right`. -/
structure NodeKind.Groups (k left right : NodeKind) : Prop where
  left_le : ∀ p q, k.precedence? = some p → left.precedence? = some q → p ≤ q
  right_lt : ∀ p q, k.precedence? = some p → right.precedence? = some q → p < q
  coalesce : k = .coalesceExpression → left ≠ .coalesceExpression
  assignment : k.isAssignment = true → left.isAssignment = false

/-- An operator of the kind binds at least as tightly as `least`, and not by rules of its own. -/
def NodeKind.Binds (least : Nat) (k : NodeKind) : Prop :=
  k.isBinary = true → ∃ p, k.precedence? = some p ∧ least ≤ p

theorem NodeKind.binds_of_not_isBinary {least : Nat} {k : NodeKind} (h : k.isBinary = false) :
    k.Binds least := by
  intro hbinary
  rw [h] at hbinary
  cases hbinary

theorem NodeKind.precedence?_of_isAssignment {k : NodeKind} (h : k.isAssignment = true) :
    k.precedence? = none := by
  cases k
  all_goals first
    | (cases h; done)
    | rfl

theorem NodeKind.Binds.ne_coalesce {least : Nat} {k : NodeKind} (h : k.Binds least) :
    k ≠ .coalesceExpression := by
  rintro rfl
  obtain ⟨p, hp, -⟩ := h rfl
  cases hp

theorem NodeKind.Binds.not_isAssignment {least : Nat} {k : NodeKind} (h : k.Binds least) :
    k.isAssignment = false := by
  by_contra htrue
  have hassignment : k.isAssignment = true := Bool.not_eq_false _ ▸ htrue
  obtain ⟨p, hp, -⟩ := h (isBinary_of_isAssignment hassignment)
  rw [NodeKind.precedence?_of_isAssignment hassignment] at hp
  cases hp

/-- An operator with a precedence groups by it alone. -/
theorem NodeKind.groups_of_precedence {k left right : NodeKind} {p : Nat}
    (hp : k.precedence? = some p) (hleft : ∀ q, left.precedence? = some q → p ≤ q)
    (hright : right.Binds (p + 1)) : k.Groups left right := by
  refine ⟨fun p' q hp' hq => ?_, fun p' q hp' hq => ?_, fun hk => ?_, fun hk => ?_⟩
  · obtain rfl : p = p' := Option.some.inj (hp.symm.trans hp')
    exact hleft q hq
  · obtain rfl : p = p' := Option.some.inj (hp.symm.trans hp')
    obtain ⟨q', hq', hless⟩ := hright (isBinary_of_precedence hq)
    obtain rfl : q = q' := Option.some.inj (hq.symm.trans hq')
    exact hless
  · rw [hk] at hp
    cases hp
  · rw [NodeKind.precedence?_of_isAssignment hk] at hp
    cases hp

theorem NodeKind.groups_of_not_isBinary {k left right : NodeKind} (h : k.isBinary = false) :
    k.Groups left right := by
  have hfalse : k.isBinary ≠ true := by simp [h]
  refine ⟨fun p q hp _ => ?_, fun p q hp _ => ?_, fun hk => ?_, fun hk => ?_⟩
  · exact absurd (isBinary_of_precedence hp) hfalse
  · exact absurd (isBinary_of_precedence hp) hfalse
  · exact absurd (hk ▸ rfl) hfalse
  · exact absurd (isBinary_of_isAssignment hk) hfalse

/-! ## Kinds of operands -/

/-- One node, of a kind with the given property. -/
def IsNode (allowed : NodeKind → Prop) (ts : List Tree) : Prop :=
  ∃ k cs, ts = [.node k cs] ∧ allowed k

/-- One node that is not an operator's. -/
abbrev IsAtom : List Tree → Prop := IsNode fun k => k.isBinary = false

theorem IsNode.mono {P Q : NodeKind → Prop} {ts : List Tree} (h : IsNode P ts)
    (hPQ : ∀ k, P k → Q k) : IsNode Q ts := by
  obtain ⟨k, cs, rfl, hk⟩ := h
  exact ⟨k, cs, rfl, hPQ k hk⟩

theorem makesAt_isNode {allowed : NodeKind → Prop} {kind : NodeKind} {p : Production}
    {s : List Lexeme} (hk : allowed kind) : MakesAt (IsNode allowed) (node kind p) s := by
  intro ts rest hok
  obtain ⟨cs, -, rfl⟩ := node_eq_ok hok
  exact ⟨kind, cs, rfl, hk⟩

section
variable {g : Inner}

theorem makes_creation : Makes IsAtom (creation g) := by
  have hany {p : Production} {s : List Lexeme} : MakesAt (fun _ => True) p s :=
    fun _ _ _ => trivial
  intro s
  refine hany.extend fun new rest _ => .look ?_
  refine .ite (fun _ => makesAt_isNode rfl) fun _ => .ite (fun _ => makesAt_isNode rfl) fun _ =>
    .ite (fun _ => makesAt_isNode rfl) fun _ => ?_
  exact hany.extend fun element rest _ =>
    .look (.ite (fun _ => makesAt_isNode rfl) fun _ => makesAt_isNode rfl)

theorem makes_primary : Makes IsAtom (primary g) := by
  refine fun s => .look ?_
  split
  case h_11 => exact makes_creation s
  case h_13 => exact .ite (fun _ => makesAt_isNode rfl) fun _ => makesAt_isNode rfl
  case h_16 => exact .ite (fun _ => makesAt_isNode rfl) fun _ => Makes.fail s
  case h_17 => exact Makes.fail s
  all_goals exact makesAt_isNode rfl

theorem isBinary_of_postfixSuffix {s : List Lexeme} {kind : NodeKind} {tail : Production}
    (h : postfixSuffix g s = some (kind, tail)) : kind.isBinary = false := by
  unfold postfixSuffix at h
  dsimp only at h
  split at h
  case h_8 => cases h
  all_goals
    obtain ⟨rfl, -⟩ := Prod.mk.inj (Option.some.inj h)
    rfl

theorem makes_unary : Makes IsAtom (unary g) := by
  have hoperand : Makes IsAtom (chain (primary g) (postfixSuffix g)) :=
    makes_primary.chain fun _ _ _ _ _ hsuffix => makesAt_isNode (isBinary_of_postfixSuffix hsuffix)
  refine fun s => .look ?_
  split
  case h_7 => exact .ite (fun _ => makesAt_isNode rfl) fun _ => hoperand s
  case h_8 => exact hoperand s
  all_goals exact makesAt_isNode rfl

theorem makes_operand : Makes IsAtom (chain (unary g) (switchSuffix g)) := by
  refine makes_unary.chain fun held s kind tail _ hsuffix => makesAt_isNode ?_
  obtain ⟨-, rfl, -⟩ := suffix_of_ite hsuffix
  rfl

/-- `binary` makes the node of an operator that binds at least as tightly as asked for, or of no
operator. -/
theorem makes_binary (least : Nat) : Makes (IsNode (NodeKind.Binds least)) (binary g least) := by
  have hoperand : Makes (IsNode (NodeKind.Binds least)) (chain (unary g) (switchSuffix g)) :=
    fun s => (makes_operand s).mono fun _ hts => hts.mono fun _ => NodeKind.binds_of_not_isBinary
  refine hoperand.chain fun held s kind tail _ hsuffix => makesAt_isNode ?_
  obtain ⟨p, hnext, hleast⟩ := binarySuffix_eq_some.mp hsuffix
  cases hnext with
  | typeTest _ => exact NodeKind.binds_of_not_isBinary rfl
  | patternTest _ _ => exact NodeKind.binds_of_not_isBinary rfl
  | rightShift _ _ => exact fun _ => ⟨shift, rfl, hleast⟩
  | operator _ _ _ hp => exact fun _ => ⟨p, hp, hleast⟩

theorem makes_conditional :
    Makes (IsNode fun k => k.isAssignment = false) (conditional g) := by
  have hbinary : Makes (IsNode fun k => k.isAssignment = false) (binary g 1) :=
    fun s => (makes_binary 1 s).mono fun _ hts => hts.mono fun _ => NodeKind.Binds.not_isAssignment
  have hcoalesce : Makes (IsNode fun k => k.isAssignment = false) (coalesce g) := by
    intro s
    refine (hbinary s).extend fun held rest hheld => .suffixed hheld fun kind tail hsuffix => ?_
    obtain ⟨-, rfl, -⟩ := suffix_of_ite hsuffix
    exact makesAt_isNode rfl
  intro s
  refine (hcoalesce s).extend fun held rest hheld => .suffixed hheld fun kind tail hsuffix => ?_
  obtain ⟨-, rfl, -⟩ := suffix_of_ite hsuffix
  exact makesAt_isNode rfl

end

/-! ## Grouped trees -/

/-- The kinds of the child nodes. -/
def Tree.operandKinds (cs : List Tree) : List NodeKind :=
  (cs.map label).filterMap Label.nodeKind?

namespace Tree

mutual

/-- Every operator in the tree groups with its operands. -/
def Grouped : Tree → Prop
  | .token _ => True
  | .node k cs =>
    (∀ left right, operandKinds cs = [left, right] → k.Groups left right) ∧ GroupedOf cs

/-- Every operator in the trees groups with its operands. -/
def GroupedOf : List Tree → Prop
  | [] => True
  | c :: cs => c.Grouped ∧ GroupedOf cs

end

theorem groupedOf_iff {ts : List Tree} : GroupedOf ts ↔ ∀ t ∈ ts, t.Grouped := by
  induction ts with
  | nil => simp [GroupedOf]
  | cons t ts ih => simp [GroupedOf, ih]

theorem groupedOf_append {ts us : List Tree} :
    GroupedOf (ts ++ us) ↔ GroupedOf ts ∧ GroupedOf us := by
  simp only [groupedOf_iff, List.forall_mem_append]

theorem operandKinds_append (ts us : List Tree) :
    operandKinds (ts ++ us) = operandKinds ts ++ operandKinds us := by
  rw [operandKinds, List.map_append, List.filterMap_append]
  rfl

/-- The first operand of an operator is on its left. -/
theorem grouped_node {kind k : NodeKind} {cs us : List Tree} (hleft : (node k cs).Grouped)
    (hus : GroupedOf us) (h : ∀ right, operandKinds us = [right] → kind.Groups k right) :
    (node kind ([node k cs] ++ us)).Grouped := by
  refine ⟨fun left right hkinds => ?_, hleft, hus⟩
  have hcons : k :: operandKinds us = [left, right] := hkinds
  obtain ⟨rfl, hright⟩ := List.cons.inj hcons
  exact h right hright

end Tree

/-- What is built is grouped. -/
def BuildsGrouped : Reading := fun _ ts _ => GroupedOf ts

theorem composes_grouped : Reading.Composes BuildsGrouped where
  nil _ := trivial
  step {_ rest ts} h := MakesAt.bump (fun _ => trivial) (fun _ _ => ⟨trivial, trivial⟩) ts rest h
  append hts hus := groupedOf_append.mpr ⟨hts, hus⟩
  wraps hk _ _ _ hts := ⟨⟨fun _ _ _ => NodeKind.groups_of_not_isBinary hk, hts⟩, trivial⟩

/-! ## The loop of binary operators -/

/-- One grouped operand. If it is an operator's, what comes next does not bind more tightly. -/
def BindsBefore : Reading := fun _ ts rest =>
  ∃ k cs, ts = [.node k cs] ∧ (Tree.node k cs).Grouped ∧
    ∀ p q g kind tail, k.precedence? = some p → Continues g rest q kind tail → q ≤ p

theorem bindsBefore_of_not_isBinary {start rest : List Lexeme} {k : NodeKind} {cs : List Tree}
    (hgrouped : (Tree.node k cs).Grouped) (hk : k.isBinary = false) :
    BindsBefore start [.node k cs] rest := by
  refine ⟨k, cs, rfl, hgrouped, ?_⟩
  intro p q g kind tail hp _
  rw [isBinary_of_precedence hp] at hk
  cases hk

/-- Signs are no operands. -/
theorem makes_sign {sign : Production} (h : sign = bump ∨ sign = seq [bump, bump]) :
    Makes (fun ts => operandKinds ts = []) sign := by
  have hadditive : Additive fun ts => operandKinds ts = [] :=
    ⟨rfl, fun hts hus => by rw [operandKinds_append, hts, hus, List.append_nil]⟩
  have hbump : Makes (fun ts => operandKinds ts = []) bump := fun _ =>
    .bump (fun _ => rfl) fun _ _ => rfl
  rcases h with rfl | rfl
  · exact hbump
  · exact hadditive.seq ⟨hbump, hbump⟩

theorem level_binary_eq_ok {n least : Nat} {s rest : List Lexeme} {ts : List Tree}
    (h : (Inner.level n).binary least s = .ok (ts, rest)) :
    ∃ m, binary (Inner.level m) least s = .ok (ts, rest) := by
  cases n with
  | zero => cases h
  | succ m => exact ⟨m, h⟩

/-- The operand on the left was there before the sign, and the one on the right is asked for. -/
theorem bindsBefore_operator {n p : Nat} {start s rest : List Lexeme} {k kind : NodeKind}
    {cs us : List Tree} {sign : Production} (hleft : (Tree.node k cs).Grouped)
    (hbefore : ∀ q, k.precedence? = some q → p ≤ q) (hp : kind.precedence? = some p)
    (hsign : sign = bump ∨ sign = seq [bump, bump]) (hgrouped : GroupedOf us)
    (hok : seq [sign, (Inner.level n).binary (p + 1)] s = .ok (us, rest)) :
    BindsBefore start [.node kind ([.node k cs] ++ us)] rest := by
  obtain ⟨signs, mid, right, hsigns, hright, rfl⟩ := seq_pair_eq_ok hok
  obtain ⟨m, hright⟩ := level_binary_eq_ok hright
  obtain ⟨k', cs', rfl, hbinds⟩ := makes_binary (p + 1) mid right rest hright
  refine ⟨kind, _, rfl, grouped_node hleft hgrouped fun right hkinds => ?_, ?_⟩
  · rw [operandKinds_append, makes_sign hsign s signs mid hsigns] at hkinds
    obtain rfl : k' = right := (List.cons.inj hkinds).1
    exact NodeKind.groups_of_precedence hp hbefore hbinds
  · intro p' q g next tail hp' hnext
    obtain rfl : p = p' := Option.some.inj (hp.symm.trans hp')
    -- whatever binds more tightly than the sign went into the right operand
    have hstop : q < p + 1 := binary_stop hright hnext
    omega

section
variable {n : Nat} (hg : (Inner.level n).Follows BuildsGrouped)
include hg

/-- One round keeps what the loop knows of its operand. -/
theorem bindsBefore_round {start s : List Lexeme} {held : List Tree} {least : Nat} {kind : NodeKind}
    {tail : Production} (hheld : BindsBefore start held s)
    (hsuffix : binarySuffix (Inner.level n) least s = some (kind, tail)) :
    FollowsAt BindsBefore start (node kind (seq [keep held, tail])) s := by
  intro ts rest hok
  obtain ⟨k, cs, rfl, hleft, hbefore⟩ := hheld
  obtain ⟨us, hus, rfl⟩ := suffix_node_eq_ok hok
  obtain ⟨p, hnext, -⟩ := binarySuffix_eq_some.mp hsuffix
  have hgrouped : GroupedOf us := hnext.follows composes_grouped hg s us rest hus
  have hbinds (q : Nat) (hq : k.precedence? = some q) : p ≤ q := hbefore q p _ kind tail hq hnext
  have htest (hk : kind.isBinary = false) :
      BindsBefore start [.node kind ([.node k cs] ++ us)] rest :=
    bindsBefore_of_not_isBinary
      (grouped_node hleft hgrouped fun _ _ => NodeKind.groups_of_not_isBinary hk) hk
  cases hnext with
  | typeTest _ => exact htest rfl
  | patternTest _ _ => exact htest rfl
  | rightShift _ _ => exact bindsBefore_operator hleft hbinds rfl (.inr rfl) hgrouped hus
  | operator _ _ _ hp => exact bindsBefore_operator hleft hbinds hp (.inl rfl) hgrouped hus

theorem grouped_binary (least : Nat) : (binary (Inner.level n) least).Follows BuildsGrouped := by
  have hoperand : Follows BindsBefore
      (chain (unary (Inner.level n)) (switchSuffix (Inner.level n))) := by
    intro s ts rest hok
    obtain ⟨k, cs, rfl, hk⟩ := makes_operand s ts rest hok
    exact bindsBefore_of_not_isBinary (follows_operand composes_grouped hg s _ rest hok).1 hk
  have hloop : Follows BindsBefore (binary (Inner.level n) least) :=
    hoperand.chain fun _ _ _ _ _ => bindsBefore_round hg
  intro s ts rest hok
  obtain ⟨k, cs, rfl, hgrouped, -⟩ := hloop s ts rest hok
  exact ⟨hgrouped, trivial⟩

omit hg in
/-- An operator that groups to the right takes an operand of another kind on its left. -/
theorem grouped_right {start s : List Lexeme} {held : List Tree} {kind : NodeKind}
    {allowed : NodeKind → Prop} {right : Production} (hnode : IsNode allowed held)
    (hheld : GroupedOf held) (hright : Follows BuildsGrouped right)
    (hgroups : ∀ left right, allowed left → kind.Groups left right) :
    FollowsAt BuildsGrouped start (node kind (seq [keep held, seq [bump, right]])) s := by
  intro ts rest hok
  obtain ⟨k, cs, rfl, hk⟩ := hnode
  obtain ⟨us, hus, rfl⟩ := suffix_node_eq_ok hok
  have htail : Follows BuildsGrouped (seq [bump, right]) :=
    composes_grouped.seq ⟨composes_grouped.bump, hright⟩
  exact ⟨grouped_node hheld.1 (htail s us rest hus) fun right _ => hgroups k right hk, trivial⟩

theorem grouped_coalesce : (coalesce (Inner.level n)).Follows BuildsGrouped := by
  intro s
  have hleft : FollowsAt (fun _ ts _ => IsNode (NodeKind.Binds 1) ts ∧ GroupedOf ts) s
      (binary (Inner.level n) 1) s :=
    fun ts rest hok => ⟨makes_binary 1 s ts rest hok, grouped_binary hg 1 s ts rest hok⟩
  refine hleft.extend fun held rest hheld => .suffixed hheld.2 fun kind tail hsuffix => ?_
  obtain ⟨-, rfl, rfl⟩ := suffix_of_ite hsuffix
  refine grouped_right hheld.1 hheld.2 hg.coalesce fun left right hbinds => ?_
  exact ⟨nofun, nofun, fun _ => hbinds.ne_coalesce, nofun⟩

theorem grouped_expression : (expression (Inner.level n)).Follows BuildsGrouped := by
  have hR := composes_grouped
  have hconditional := follows_conditional hR hg (grouped_coalesce hg)
  have hleft : Follows (fun _ ts _ => IsNode (·.isAssignment = false) ts ∧ GroupedOf ts)
      (conditional (Inner.level n)) :=
    fun s ts rest hok => ⟨makes_conditional s ts rest hok, hconditional s ts rest hok⟩
  refine follows_expression hR hg hleft (fun _ _ _ hheld => hheld.2) ?_
  intro start held s kind hheld hkind
  refine grouped_right hheld.1 hheld.2 hg.expression fun left right hassignment => ?_
  have hnone := NodeKind.precedence?_of_isAssignment hkind
  refine ⟨fun p q hp => ?_, fun p q hp => ?_, fun hk => ?_, fun _ => hassignment⟩
  · rw [hnone] at hp
    cases hp
  · rw [hnone] at hp
    cases hp
  · rw [hk] at hkind
    cases hkind

end

/-! ## Source files -/

theorem grouped_compilationUnit {s : List Lexeme} {t : Tree} (h : compilationUnit s = .ok t) :
    t.Grouped := by
  obtain ⟨rest, hgrouped⟩ := follows_compilationUnit composes_grouped
    (fun n hg => ⟨grouped_binary hg, grouped_coalesce hg, grouped_expression hg⟩) h
  exact hgrouped.1

namespace Node

theorem Inside.grouped {t : Tree} {n : Node} (h : n.Inside t) (ht : t.Grouped) :
    n.tree.Grouped := by
  induction h using Inside.rec_childNodes with
  | root =>
    cases t with
    | token t => exact ⟨fun _ _ => nofun, trivial, trivial⟩
    | node k cs => exact ht
  | child n m _ hm ih => exact groupedOf_iff.mp ih.2 _ (tree_mem_children hm)

/-- An operator's node has two operands, and they are grouped by precedence and to the left, or for
`??` and assignments to the right. -/
structure Grouped (n : Node) : Prop where
  precedence : ∀ p, n.kind.precedence? = some p → ∃ left right, n.childNodes = [left, right] ∧
    (∀ q, left.kind.precedence? = some q → p ≤ q) ∧
    ∀ q, right.kind.precedence? = some q → p < q
  coalesce : n.kind = .coalesceExpression → ∃ left right, n.childNodes = [left, right] ∧
    left.kind ≠ .coalesceExpression
  assignment : n.kind.isAssignment = true → ∃ left right, n.childNodes = [left, right] ∧
    left.kind.isAssignment = false

/-- A grouped node of a shaped tree has its two operands. -/
theorem exists_operands {n : Node} (hshaped : n.tree.Shaped) (hgrouped : n.tree.Grouped)
    (hk : n.kind.isBinary = true) : ∃ left right, n.childNodes = [left, right] ∧
      n.kind.Groups left.kind right.kind := by
  obtain ⟨left, right, _, _, hnodes, -⟩ := childNodes_operation hshaped hk
  refine ⟨left, right, hnodes, hgrouped.1 left.kind right.kind ?_⟩
  rw [operandKinds, ← map_kind_childNodes, hnodes]
  rfl

end Node

/-- In the tree of a text, binary operators group by precedence and to the left, and `??` and
assignments group to the right. -/
theorem grouped_parse {text : String} {t : Tree} (h : parse text = .ok t) :
    ∀ n ∈ (Node.root t).descendants, n.Grouped := by
  intro n hn
  have hinside := Node.Inside.of_mem_descendants hn
  obtain ⟨ls, -, hunit⟩ := parse_eq_ok.mp h
  have hoperands := Node.exists_operands (hinside.shaped (shaped_compilationUnit hunit))
    (hinside.grouped (grouped_compilationUnit hunit))
  refine ⟨fun p hp => ?_, fun hk => ?_, fun hk => ?_⟩
  · obtain ⟨left, right, hnodes, hgroups⟩ := hoperands (isBinary_of_precedence hp)
    exact ⟨left, right, hnodes, fun q => hgroups.left_le p q hp, fun q => hgroups.right_lt p q hp⟩
  · obtain ⟨left, right, hnodes, hgroups⟩ := hoperands (by rw [hk]; rfl)
    exact ⟨left, right, hnodes, hgroups.coalesce hk⟩
  · obtain ⟨left, right, hnodes, hgroups⟩ := hoperands (isBinary_of_isAssignment hk)
    exact ⟨left, right, hnodes, hgroups.assignment hk⟩

/-- Operators of many precedences, a shift, tests of types, and operators that group to the right. -/
def mixedOperators : String :=
  "class C \x7b bool F = a = b = c ?? d ?? e - f - g * h >> 1 < 2 & i as A is B && j; \x7d"

theorem grouped_parse_mixedOperators :
    ∃ t, parse mixedOperators = .ok t ∧
      ((Node.root t).descendants.map Node.kind).filter NodeKind.isBinary =
        [.simpleAssignmentExpression, .simpleAssignmentExpression, .coalesceExpression,
          .coalesceExpression, .logicalAndExpression, .bitwiseAndExpression, .lessThanExpression,
          .rightShiftExpression, .subtractExpression, .subtractExpression,
          .multiplyExpression] ∧
      ∀ n ∈ (Node.root t).descendants, n.Grouped := by
  have hkinds : (parse mixedOperators).toOption.map
      (fun t => ((Node.root t).descendants.map Node.kind).filter NodeKind.isBinary) =
      some [.simpleAssignmentExpression, .simpleAssignmentExpression, .coalesceExpression,
        .coalesceExpression, .logicalAndExpression, .bitwiseAndExpression, .lessThanExpression,
        .rightShiftExpression, .subtractExpression, .subtractExpression,
        .multiplyExpression] := by
    decide +kernel
  cases h : parse mixedOperators with
  | error e =>
    rw [h] at hkinds
    cases hkinds
  | ok t =>
    rw [h] at hkinds
    exact ⟨t, rfl, Option.some.inj hkinds, grouped_parse h⟩

end SharpLint
