import SharpLint.Proofs.Repair.Wrapped
import SharpLint.Proofs.Rule.Due
import SharpLint.Proofs.Rule.Implicit
import SharpLint.Proofs.Tree.Position

/-!
# Findings and what is due

Each finding is about a place that is due, and each place that is due has its finding:

    call of `ToString`      the callee is reported               (isDue_call_iff)
    hole                    its expression is reported           (isDue_text_iff)
    operand                 the operand itself is reported       (isDue_text_iff)
    declaration             the declaration itself is reported   (isDue_visibility_iff)

A node has its situation from the nodes above it. It is an operand exactly when the way up leads through
parentheses to a concatenation (`use_eq_operand_iff`).
-/

namespace SharpLint

open SharpLint.Tree Skeleton

namespace Node

variable {scope : Scope} {start : String} {t : Tree} {n m : Node}

/-! ## Situations of nodes -/

theorem kind_ne_modifierList (h : n.tree.Shaped) (hm : m ∈ n.childNodes) : n.kind ≠ .modifierList := by
  intro hk
  obtain ⟨ts, hts⟩ := IsTokens.exists_tokens (form h hk)
  have hmem := tree_mem_children hm
  rw [hts] at hmem
  obtain ⟨u, -, hu⟩ := List.mem_map.mp hmem
  cases hu

theorem getElem?_body (h : n.tree.Shaped) (hm : m ∈ n.childNodes) :
    n.body[m.index]? = some m.tree.skeleton := by
  rw [body_eq (kind_ne_modifierList h hm), List.getElem?_map, children_getElem?_index hm]
  rfl

/-- The skeleton of a node stands at the path of the node. -/
theorem Inside.at?_skeleton (h : n.Inside t) (ht : t.Shaped) :
    (Node.root t).tree.skeleton.at? n.path = some n.tree.skeleton := by
  induction h using Inside.rec_childNodes with
  | root =>
    rw [path_root]
    rfl
  | child p m hp hm ih =>
    rw [path_of_mem_childNodes hm, Skeleton.at?_append ih]
    show (p.body[m.index]?.bind fun d => d.at? []) = _
    rw [getElem?_body (hp.shaped ht) hm]
    rfl

/-- What is known at a node of a tree of what is around it. -/
def situation (scope : Scope) (start : String) (t : Tree) (n : Node) : Situation :=
  Skeleton.situation scope start .root (Node.root t).tree.skeleton n.path

theorem situation_root : situation scope start t (Node.root t) = .root := by
  rw [situation, path_root]
  rfl

theorem situation_of_mem_childNodes (h : n.Inside t) (ht : t.Shaped) (hm : m ∈ n.childNodes) :
    situation scope start t m =
      down scope start (situation scope start t n) (head n.kind n.children) n.body := by
  rw [situation, path_of_mem_childNodes hm, situation_append (h.at?_skeleton ht)]
  exact situation_cons (getElem?_body (h.shaped ht) hm) []

theorem names_situation (h : n.Inside t) (ht : t.Shaped) :
    (situation scope start t n).names = n.namesAround := by
  induction h using Inside.rec_childNodes with
  | root =>
    rw [situation_root, namesAround, above_root]
    rfl
  | child p m hp hm ih =>
    rw [situation_of_mem_childNodes hp ht hm, namesAround_of_mem_childNodes hm, names_eq, ← ih,
      ← ownName?_body]
    rfl

/-- The node is due in its tree. -/
def isDue (scope : Scope) (start : String) (t : Tree) (cause : Cause) (n : Node) : Bool :=
  Skeleton.isDue scope (situation scope start t n) (head n.kind n.children) n.body cause

theorem dueAt_path_iff (h : n.Inside t) (ht : t.Shaped) (cause : Cause) :
    DueAt scope start cause .root (Node.root t).tree.skeleton n.path ↔
      n.isDue scope start t cause = true := by
  rw [← List.append_nil n.path]
  exact dueAt_append (h.at?_skeleton ht) [] cause

end Node

namespace Skeleton

variable {scope : Scope} {start : String} {cause : Cause} {σ : Situation}

theorem exists_at?_of_dueAt {s : Skeleton} {path : List Nat}
    (h : DueAt scope start cause σ s path) : ∃ head cs, s.at? path = some (.node head cs) := by
  induction path generalizing σ s with
  | nil =>
    cases s with
    | word k text => exact h.elim
    | node head cs => exact ⟨head, cs, rfl⟩
  | cons i path ih =>
    cases s with
    | word k text => exact h.elim
    | node head cs =>
      obtain ⟨d, hd, h⟩ := h
      rw [at?, hd]
      exact ih h

theorem exists_of_at?_skeleton {t : Tree} {path : List Nat} {s : Skeleton}
    (h : t.skeleton.at? path = some s) : ∃ u, t.at? path = some u ∧ u.skeleton = s := by
  induction path generalizing t with
  | nil => exact ⟨t, t.at?_nil, Option.some.inj h⟩
  | cons i path ih =>
    cases t with
    | token u => cases h
    | node k cs =>
      obtain ⟨d, hd, h⟩ := Option.bind_eq_some_iff.mp h
      split at hd
      · cases hd
      · rw [skeletons_eq_map, List.getElem?_map] at hd
        obtain ⟨c, hc, rfl⟩ := Option.map_eq_some_iff.mp hd
        obtain ⟨u, hu, hskeleton⟩ := ih h
        exact ⟨u, by rw [Tree.at?_cons, show (Tree.node k cs).children[i]? = some c from hc]; exact hu,
          hskeleton⟩

/-- What is due in a tree is due at one of its nodes. -/
theorem exists_node_of_dueAt {t : Tree} {path : List Nat}
    (h : DueAt scope start cause σ (Node.root t).tree.skeleton path) :
    ∃ n : Node, n.Inside t ∧ n.path = path := by
  obtain ⟨head, cs, hat⟩ := exists_at?_of_dueAt h
  obtain ⟨u, hu, hskeleton⟩ := exists_of_at?_skeleton hat
  cases u with
  | token w => cases hskeleton
  | node k ds =>
    obtain ⟨n, hn, hpath, -⟩ := Node.exists_inside_of_at? hu
    exact ⟨n, hn, hpath⟩

end Skeleton

/-! ## What a scope says of nodes -/

namespace Scope

open Node

variable {scope : Scope} {start : String} {t : Tree} {n : Node}

theorem isFloatingExpression_eq (n : Node) :
    scope.bindings.isFloatingExpression n = isFloating (scope.typeOf? n) := by
  rw [Bindings.isFloatingExpression, bindings, isFloating, Option.any_map]
  refine congrArg (Option.any · (scope.typeOf? n)) (funext fun r => ?_)
  show (FloatKind.ofSpecial? r.special).isSome = r.special.isFloatingPoint
  cases r.special
  all_goals rfl

theorem any_isString_eq (n : Node) :
    (scope.bindings.typeOf? n).any TypeInfo.isString = isString (scope.typeOf? n) := by
  rw [bindings, isString, Option.any_map]
  exact congrArg (Option.any · (scope.typeOf? n)) (funext fun r => Bool.or_self _)

/-- The type of a node in its place. -/
theorem typeIn_situation (h : n.Inside t) (ht : t.Shaped) :
    typeIn scope (n.situation scope start t) (.node (head n.kind n.children) n.body) =
      (n.aspect scope).type := by
  rw [typeIn, names_situation h ht]
  rfl

theorem aspects_situation (h : n.Inside t) (ht : t.Shaped) (hk : n.kind ≠ .modifierList) :
    aspects scope (namesIn (n.situation scope start t) (head n.kind n.children) n.body) n.body =
      n.childNodes.map (·.aspect scope) := by
  rw [← nodes_body hk, namesIn, names_situation h ht, names_eq, ← ownName?_body]
  rfl

/-! ## Calls -/

theorem isCallee_of_childNode? {callee : Node} (hk : n.kind = .invocationExpression)
    (h : n.childNode? 0 = some callee) : Rule.Formatting.isCallee callee = true := by
  rw [Rule.Formatting.isCallee, parent?_of_mem_childNodes (List.mem_of_getElem? h), Option.any_some,
    hk, h, Option.any_some, beq_self_eq_true, beq_self_eq_true]
  rfl

/-- A callee is reported by what the call sees of it. -/
theorem callsToString_eq {callee : Node} (hn : n.tree.Shaped) (hk : n.kind = .invocationExpression)
    (h : n.childNode? 0 = some callee) : Rule.Formatting.callsToString scope.bindings callee =
      ((callee.aspect scope).member.any (· == "ToString") &&
        isFloating (callee.aspect scope).inner) := by
  have hmem : callee ∈ n.childNodes := List.mem_of_getElem? h
  have hcallee := shaped_of_mem_childNodes hn hmem
  have hne : callee.kind ≠ .modifierList := by
    obtain ⟨first, list, hnodes, -, hexpression, -⟩ := childNodes_invocation hn hk
    obtain rfl : first = callee := by
      rw [childNode?, hnodes] at h
      exact Option.some.inj h
    intro hlist
    rw [hlist] at hexpression
    cases hexpression
  rw [member_aspect hcallee hne, Rule.Formatting.callsToString, isCallee_of_childNode? hk h,
    memberAccess?]
  split
  · rename_i haccess
    obtain ⟨receiver, name, hnodes, -, hreceiver, -⟩ := childNodes_access hcallee (.inl haccess)
    have hinner : (callee.aspect scope).inner = scope.typeOf? receiver := by
      rw [aspect_eq hne, typeOf?_eq (shaped_of_mem_childNodes hcallee (by rw [hnodes]; simp)) hreceiver,
        hnodes]
      show (if callee.kind = .simpleMemberAccessExpression then _ else _) = _
      rw [if_pos haccess]
      rfl
    have hfirst : callee.childNode? 0 = some receiver := by
      rw [childNode?, hnodes]
      rfl
    rw [hinner, Option.any_some, hfirst, Option.any_some, isFloatingExpression_eq, Option.map_some,
      Option.any_some, Bool.and_true]
  · rfl

/-- A call is due when its callee is reported. -/
theorem isDue_call_iff (h : n.Inside t) (ht : t.Shaped) : n.isDue scope start t .call = true ↔
    n.kind = .invocationExpression ∧ ∃ callee, n.childNode? 0 = some callee ∧
      Rule.Formatting.callsToString scope.bindings callee = true := by
  show (n.kind == .invocationExpression && _) = true ↔ _
  rw [Bool.and_eq_true, beq_iff_eq]
  refine and_congr_right fun hk => ?_
  have hn := h.shaped ht
  rw [aspects_situation h ht (by rw [hk]; decide), List.getElem?_map, Option.any_map,
    Option.any_eq_true]
  refine exists_congr fun callee => and_congr_right fun hcallee => ?_
  rw [callsToString_eq hn hk hcallee]

/-! ## Declarations -/

theorem inSupport_situation (h : n.Inside t) (ht : t.Shaped) :
    (n.situation scope start t).inSupport = Rule.SupportNamespace.isInside start n := by
  cases h using Inside.rec_childNodes with
  | root =>
    rw [situation_root, Rule.SupportNamespace.isInside, parent?, above_root]
    rfl
  | child p m hp hm ih =>
    rw [situation_of_mem_childNodes hp ht hm, Rule.SupportNamespace.isInside,
      parent?_of_mem_childNodes hm]
    show (p.kind.isNamespaceDeclaration && (Skeleton.ownName? p.kind p.body).any _) = _
    cases hspace : p.kind.isNamespaceDeclaration with
    | false =>
      rw [Option.filter_some, hspace]
      rfl
    | true =>
      have htype : p.kind.isTypeDeclaration = false := by
        revert hspace
        cases p.kind
        all_goals exact fun h => by first | rfl | cases h
      rw [ownName?_body, Node.ownName?, htype, Option.filter_some, hspace]
      show (true && (some (p.namespaceName?.map Node.text)).any _) = p.namespaceName?.any _
      rw [Option.any_some, Option.any_map]
      rfl

/-- A declaration is due when it is reported. -/
theorem isDue_visibility_iff (h : n.Inside t) (ht : t.Shaped) :
    n.isDue scope start t .visibility = Rule.SupportNamespace.isExposed start n := by
  rw [Node.isDue, Skeleton.isDue, inSupport_situation h ht, Rule.SupportNamespace.isExposed,
    ← publicAmong_children]
  rfl

/-! ## Operands -/

/-- More fuel than there are parentheses changes nothing. -/
theorem unparenthesizeUpTo_eq (fuel : Nat) (n : Node) (h : n.tree.height ≤ fuel) :
    n.unparenthesizeUpTo fuel = n.unparenthesize := by
  induction fuel using Nat.strongRecOn generalizing n with
  | ind fuel ih =>
    have hheight : n.tree.height = Tree.heightOf n.children + 1 := rfl
    obtain ⟨fuel, rfl⟩ : ∃ less, fuel = less + 1 := ⟨fuel - 1, by omega⟩
    rw [unparenthesize, hheight, unparenthesizeUpTo, unparenthesizeUpTo]
    split
    · cases hfirst : n.childNode? 0 with
      | none => rfl
      | some inner =>
        have hlt := Rule.Formatting.height_lt_of_mem_childNodes (List.mem_of_getElem? hfirst)
        show inner.unparenthesizeUpTo fuel = inner.unparenthesizeUpTo (Tree.heightOf n.children)
        rw [ih fuel (by omega) inner (by omega),
          ih (Tree.heightOf n.children) (by omega) inner (by omega)]
    · rfl

theorem unparenthesize_of_kind (hk : n.kind ≠ .parenthesizedExpression) : n.unparenthesize = n := by
  have hheight : n.tree.height = Tree.heightOf n.children + 1 := rfl
  rw [unparenthesize, hheight, unparenthesizeUpTo, if_neg hk]

theorem unparenthesize_eq (hk : n.kind = .parenthesizedExpression) {inner : Node}
    (hnodes : n.childNodes = [inner]) : n.unparenthesize = inner.unparenthesize := by
  have hmem : inner ∈ n.childNodes := hnodes ▸ List.mem_singleton_self inner
  have hlt := Rule.Formatting.height_lt_of_mem_childNodes hmem
  have hheight : n.tree.height = Tree.heightOf n.children + 1 := rfl
  rw [unparenthesize_of_child hk hnodes, unparenthesizeUpTo_eq _ _ (by omega)]

theorem kind_unparenthesize (h : n.tree.Shaped) :
    n.unparenthesize.kind ≠ .parenthesizedExpression := by
  suffices hfuel : ∀ fuel (n : Node), n.tree.Shaped → n.tree.height ≤ fuel →
      n.unparenthesize.kind ≠ .parenthesizedExpression from hfuel _ n h (Nat.le_refl _)
  intro fuel
  induction fuel with
  | zero =>
    intro n _ hfuel
    have hheight : n.tree.height = Tree.heightOf n.children + 1 := rfl
    omega
  | succ fuel ih =>
    intro n h hfuel
    by_cases hk : n.kind = .parenthesizedExpression
    · obtain ⟨inner, hnodes, -⟩ := childNodes_parenthesized h hk
      have hmem : inner ∈ n.childNodes := hnodes ▸ List.mem_singleton_self inner
      have hlt := Rule.Formatting.height_lt_of_mem_childNodes hmem
      rw [unparenthesize_eq hk hnodes]
      exact ih inner (shaped_of_mem_childNodes h hmem) (by omega)
    · rwa [unparenthesize_of_kind hk]

/-- What stands in the parentheses around an operand is an operand. -/
theorem use_unparenthesizeUpTo (fuel : Nat) (h : n.Inside t) (ht : t.Shaped)
    (huse : (n.situation scope start t).use = .operand) : (n.unparenthesizeUpTo fuel).Inside t ∧
      ((n.unparenthesizeUpTo fuel).situation scope start t).use = .operand := by
  induction fuel generalizing n with
  | zero => exact ⟨h, huse⟩
  | succ fuel ih =>
    rw [unparenthesizeUpTo]
    split
    · rename_i hk
      cases hfirst : n.childNode? 0 with
      | none => exact ⟨h, huse⟩
      | some inner =>
        have hmem : inner ∈ n.childNodes := List.mem_of_getElem? hfirst
        refine ih (h.child hmem) ?_
        rw [situation_of_mem_childNodes h ht hmem]
        exact down_operand_iff.mpr (.inr ⟨hk, huse⟩)
    · exact ⟨h, huse⟩

/-- The name of a member is a name. -/
theorem isMemberName_of_kind (h : n.Inside t) (ht : t.Shaped) (hk : n.kind ≠ .identifierName) :
    isMemberName n = false := by
  cases h using Inside.rec_childNodes with
  | root =>
    rw [isMemberName, parent?, above_root]
    exact Bool.and_false _
  | child p m hp hm ih =>
    by_cases haccess : p.kind = .simpleMemberAccessExpression ∨ p.kind = .conditionalAccessExpression
    · obtain ⟨receiver, name, hnodes, hname, hreceiver, -⟩ :=
        childNodes_access (hp.shaped ht) haccess
      rw [hnodes, List.mem_cons, List.mem_singleton] at hm
      rcases hm with rfl | rfl
      · exact hreceiver
      · exact absurd hname hk
    · rw [not_or] at haccess
      exact isMemberName_of_child hm haccess.1 haccess.2

variable (start) in
/-- An operand of a concatenation, in parentheses or not, stands below a sum that is text. -/
theorem use_eq_operand_iff (h : n.Inside t) (ht : t.Shaped) :
    (n.situation scope start t).use = .operand ∧ n.kind ≠ .parenthesizedExpression ↔
      Rule.Formatting.IsTextOperand scope.bindings t n := by
  have hsum {p : Node} (hp : p.Inside t) (hk : p.kind = .addExpression) :
      isString (typeIn scope (p.situation scope start t) (.node (head p.kind p.children) p.body)) =
        (scope.bindings.typeOf? p).any TypeInfo.isString := by
    rw [any_isString_eq, typeIn_situation hp ht,
      typeOf?_eq (hp.shaped ht) (isMemberName_of_kind hp ht (by rw [hk]; decide))]
  constructor
  · rintro ⟨huse, hk⟩
    suffices hway : ∃ p c : Node, p.Inside t ∧ p.kind = .addExpression ∧
        (scope.bindings.typeOf? p).any TypeInfo.isString = true ∧ c ∈ p.childNodes ∧
          n.unparenthesize = c.unparenthesize by
      rwa [unparenthesize_of_kind hk] at hway
    clear hk
    induction h using Inside.rec_childNodes with
    | root =>
      rw [situation_root] at huse
      cases huse
    | child p m hp hm ih =>
      rw [situation_of_mem_childNodes hp ht hm] at huse
      rcases down_operand_iff.mp huse with ⟨hk, hstring⟩ | ⟨hk, huse⟩
      · exact ⟨p, m, hp, hk, (hsum hp hk).symm.trans hstring, hm, rfl⟩
      · obtain ⟨inner, hnodes, -⟩ := childNodes_parenthesized (hp.shaped ht) hk
        rw [hnodes, List.mem_singleton] at hm
        rw [hm, ← unparenthesize_eq hk hnodes]
        exact ih huse
  · rintro ⟨p, c, hp, hk, hstring, hc, rfl⟩
    refine ⟨(use_unparenthesizeUpTo _ (hp.child hc) ht ?_).2,
      kind_unparenthesize ((hp.child hc).shaped ht)⟩
    rw [situation_of_mem_childNodes hp ht hc]
    exact down_operand_iff.mpr (.inl ⟨hk, (hsum hp hk).trans hstring⟩)

theorem isMemberName_of_operand (h : n.Inside t) (ht : t.Shaped)
    (huse : (n.situation scope start t).use = .operand) : isMemberName n = false := by
  cases h using Inside.rec_childNodes with
  | root =>
    rw [situation_root] at huse
    cases huse
  | child p m hp hm ih =>
    rw [situation_of_mem_childNodes hp ht hm] at huse
    rcases down_operand_iff.mp huse with ⟨hk, -⟩ | ⟨hk, -⟩
    · exact isMemberName_of_child hm (by rw [show p.kind = _ from hk]; decide)
        (by rw [show p.kind = _ from hk]; decide)
    · exact isMemberName_of_child hm (by rw [show p.kind = _ from hk]; decide)
        (by rw [show p.kind = _ from hk]; decide)

/-! ## Holes -/

theorem use_eq_part_iff (h : n.Inside t) (ht : t.Shaped) :
    (n.situation scope start t).use = .part ↔
      ∃ p : Node, p.Inside t ∧ p.kind = .interpolatedStringExpression ∧ n ∈ p.childNodes := by
  constructor
  · intro huse
    cases h using Inside.rec_childNodes with
    | root =>
      rw [situation_root] at huse
      cases huse
    | child p m hp hm ih =>
      rw [situation_of_mem_childNodes hp ht hm, down_part_iff] at huse
      exact ⟨p, hp, huse, hm⟩
  · rintro ⟨p, hp, hk, hm⟩
    rw [situation_of_mem_childNodes hp ht hm, down_part_iff]
    exact hk

theorem expression_of_hole_iff (h : n.tree.Shaped) (hk : n.kind = .interpolation) (e : Node) :
    n.hole?.bind Node.HoleParts.expression = some e ↔ n.childNode? 0 = some e := by
  refine ⟨fun he => (Repair.FormatCall.childNode?_of_hole he).2, fun he => ?_⟩
  obtain ⟨e', parts, -, -, hparts, hexpression, -⟩ := Repair.FormatCall.exists_hole h hk
  have hhole : n.hole?.bind Node.HoleParts.expression = some e' := by
    rw [hparts]
    exact hexpression
  rw [hhole, ← (Repair.FormatCall.childNode?_of_hole hhole).2, he]

/-- A hole is due when its expression is reported, and an operand when it is reported itself. -/
theorem isDue_text_iff (h : n.Inside t) (ht : t.Shaped) : n.isDue scope start t .text = true ↔
    (∃ e, scope.bindings.isFloatingExpression e = true ∧
        n.hole?.bind Node.HoleParts.expression = some e ∧
        ∃ p : Node, p.Inside t ∧ p.kind = .interpolatedStringExpression ∧ n ∈ p.childNodes) ∨
      scope.bindings.isFloatingExpression n = true ∧
        Rule.Formatting.IsTextOperand scope.bindings t n := by
  show ((n.kind == .interpolation && _ && _) || (_ && _ && _)) = true ↔ _
  rw [Bool.or_eq_true]
  refine or_congr ?_ ?_
  · rw [Bool.and_eq_true, Bool.and_eq_true, beq_iff_eq, beq_iff_eq, use_eq_part_iff h ht]
    constructor
    · rintro ⟨⟨hk, hpart⟩, hfirst⟩
      rw [aspects_situation h ht (by rw [hk]; decide), List.getElem?_map, Option.any_map] at hfirst
      obtain ⟨e, he, hfloat⟩ := (Option.any_eq_true _ _).mp hfirst
      have hmem : e ∈ n.childNodes := List.mem_of_getElem? he
      refine ⟨e, ?_, (expression_of_hole_iff (h.shaped ht) hk e).mpr he, hpart⟩
      rw [isFloatingExpression_eq, typeOf?_eq ((h.child hmem).shaped ht)
        (isMemberName_of_child hmem (by rw [hk]; decide) (by rw [hk]; decide))]
      exact hfloat
    · rintro ⟨e, hfloat, he, hpart⟩
      obtain ⟨hk, hfirst⟩ := Repair.FormatCall.childNode?_of_hole he
      have hmem : e ∈ n.childNodes := List.mem_of_getElem? hfirst
      refine ⟨⟨hk, hpart⟩, ?_⟩
      rw [isFloatingExpression_eq, typeOf?_eq ((h.child hmem).shaped ht)
        (isMemberName_of_child hmem (by rw [hk]; decide) (by rw [hk]; decide))] at hfloat
      rw [aspects_situation h ht (by rw [hk]; decide), List.getElem?_map, Option.any_map]
      exact (Option.any_eq_true _ _).mpr ⟨e, hfirst, hfloat⟩
  · rw [← use_eq_operand_iff start h ht, Bool.and_eq_true, Bool.and_eq_true, beq_iff_eq,
      bne_iff_ne, typeIn_situation h ht, and_comm]
    refine and_congr_left fun hoperand => ?_
    rw [isFloatingExpression_eq, typeOf?_eq (h.shaped ht) (isMemberName_of_operand h ht hoperand.1)]

end Scope

end SharpLint
