import SharpLint.Proofs.Grammar.ShapeUnit
import SharpLint.Proofs.Tree.Parts

/-!
# Views of parsed trees

A view looks for a part by its number among the children, or takes the first child of some kind. The
grammar builds nodes of one kind in several productions, with and without attributes, modifiers and
type parameters; all of them put the parts where the views look:

    parse text = .ok t → every node of t is `Viewed`                             (viewed_parse)
-/

namespace SharpLint

open SharpLint.Tree

/-- The views of the node find their parts. -/
structure Node.Viewed (n : Node) : Prop where
  /-- Two operands, and a sign. -/
  operation : n.kind.isBinary = true → ∃ left right sign,
    n.childNodes = [left, right] ∧ n.binary? = some ⟨some left, some sign, some right⟩
  memberAccess : n.kind = .simpleMemberAccessExpression → ∃ receiver name,
    n.childNodes = [receiver, name] ∧ name.kind = .identifierName ∧
      n.memberAccess? = some ⟨some receiver, some name⟩
  /-- A callee, and right behind it the arguments. -/
  call : n.kind = .invocationExpression → ∃ callee list,
    n.children = [callee.tree, list.tree] ∧ list.kind = .argumentList ∧
      n.call? = some ⟨some callee, some list⟩
  parentheses : n.kind = .parenthesizedExpression → ∃ inner, n.childNodes = [inner]
  hole : n.kind = .interpolation → ∃ e alignment format, n.hole? = some ⟨some e, alignment, format⟩
  namespaceName : n.kind.isNamespaceDeclaration = true → ∃ name, n.namespaceName? = some name
  /-- Attributes, modifiers and a word. The name is the first identifier behind the word. -/
  typeName : n.kind.isTypeDeclaration = true → ∃ attributes list word between name rest,
    n.children =
        attributes ++ .node .modifierList list :: .token word :: between ++ .token name :: rest ∧
      (∀ c ∈ attributes, c.label = .node .attributeList) ∧
      IsBetween n.kind (between.map label) ∧ name.kind = .identifier ∧
      n.typeName? = some ⟨name,
        n.offset + widthOf (attributes ++ .node .modifierList list :: .token word :: between), n,
        (attributes ++ .node .modifierList list :: .token word :: between).length⟩
  method : n.kind = .methodDeclaration →
    (∃ type, n.declaredType? = some type) ∧ ∃ name, n.declaredName? = some name

namespace Node

variable {n : Node}

theorem binary?_of_shaped (h : n.tree.Shaped) (hk : n.kind.isBinary = true) :
    ∃ left right sign,
      n.childNodes = [left, right] ∧ n.binary? = some ⟨some left, some sign, some right⟩ := by
  obtain ⟨left, right, sign, others, hnodes, htokens, -, -⟩ := childNodes_operation h hk
  refine ⟨left, right, sign, hnodes, ?_⟩
  rw [binary?, if_pos hk, childNode?, childNode?, hnodes, htokens]
  rfl

theorem memberAccess?_of_shaped (h : n.tree.Shaped) (hk : n.kind = .simpleMemberAccessExpression) :
    ∃ receiver name, n.childNodes = [receiver, name] ∧ name.kind = .identifierName ∧
      n.memberAccess? = some ⟨some receiver, some name⟩ := by
  obtain ⟨receiver, name, sign, hnodes, -, -, hname, -⟩ := childNodes_memberAccess h hk
  refine ⟨receiver, name, hnodes, hname, ?_⟩
  rw [memberAccess?, if_pos hk, childNode?, childNode?, hnodes]
  rfl

theorem kind_ne_of_isExpression {k : NodeKind} (h : n.kind.isExpression = true)
    (hk : k.isExpression = false) : n.kind ≠ k := by
  intro hkind
  rw [hkind, hk] at h
  cases h

/-- The callee is an expression, so that the first list of arguments is that of the call. -/
theorem call?_of_shaped (h : n.tree.Shaped) (hk : n.kind = .invocationExpression) :
    ∃ callee list, n.children = [callee.tree, list.tree] ∧ list.kind = .argumentList ∧
      n.call? = some ⟨some callee, some list⟩ := by
  obtain ⟨callee, list, hnodes, hchildren, hcallee, hlist⟩ := childNodes_invocation h hk
  have hne : callee.kind ≠ .argumentList := kind_ne_of_isExpression hcallee rfl
  refine ⟨callee, list, hchildren, hlist, ?_⟩
  rw [call?, if_pos hk, childNode?, childOfKind?, hnodes]
  simp [hne, hlist]

/-- The expression of a hole is neither an alignment nor a format. -/
theorem hole?_of_shaped (h : n.tree.Shaped) (hk : n.kind = .interpolation) :
    ∃ e alignment format, n.hole? = some ⟨some e, alignment, format⟩ := by
  obtain ⟨e, rest, hnodes, he⟩ := childNodes_interpolation h hk
  have halignment : e.kind ≠ .interpolationAlignmentClause := kind_ne_of_isExpression he rfl
  have hformat : e.kind ≠ .interpolationFormatClause := kind_ne_of_isExpression he rfl
  refine ⟨e, n.childOfKind? .interpolationAlignmentClause, n.childOfKind? .interpolationFormatClause,
    ?_⟩
  rw [hole?, if_pos hk, childNode?, hnodes]
  simp [halignment, hformat]

/-- The views find their parts in any shaped node. -/
theorem viewed_of_shaped (h : n.tree.Shaped) : n.Viewed where
  operation := binary?_of_shaped h
  memberAccess := memberAccess?_of_shaped h
  call := call?_of_shaped h
  parentheses hk := by
    obtain ⟨inner, hnodes, -⟩ := childNodes_parenthesized h hk
    exact ⟨inner, hnodes⟩
  hole := hole?_of_shaped h
  namespaceName := exists_namespaceName h
  typeName := exists_typeName_split h
  method := exists_typeAndName h

end Node

/-- The views agree with the grammar: in the tree of a text they find the parts of every node. -/
theorem viewed_parse {text : String} {t : Tree} (h : parse text = .ok t) :
    ∀ n ∈ (Node.root t).descendants, n.Viewed := by
  intro n hn
  exact Node.viewed_of_shaped ((Node.Inside.of_mem_descendants hn).shaped (sound_parse h).shaped)

/-- The kinds that have views, those of other operations and declarations apart. -/
def viewedKinds : List NodeKind :=
  [.addExpression, .simpleMemberAccessExpression, .invocationExpression, .parenthesizedExpression,
    .interpolation, .namespaceDeclaration, .recordDeclaration, .recordStructDeclaration,
    .delegateDeclaration, .methodDeclaration]

/-- Records, a delegate, and a method with a hole in a string. -/
def viewedSource : String :=
  "namespace A.B \x7b [Serializable] public partial record struct P<T>(int X) where T : class \x7b " ++
    "[Pure] static string? M(float x) => $\"\x7b(x + 1).ToString(),5:R\x7d\"; \x7d " ++
    "delegate Map<int> F(P p); record class Q; \x7d"

theorem viewed_parse_viewedSource :
    ∃ t, parse viewedSource = .ok t ∧
      (∀ k ∈ viewedKinds, ∃ n ∈ (Node.root t).descendants, n.kind = k) ∧
      ∀ n ∈ (Node.root t).descendants, n.Viewed := by
  have hrun : (parse viewedSource).toOption.any (fun t =>
      viewedKinds.all fun k => (Node.root t).descendants.any (·.kind == k)) = true := by
    decide +kernel
  cases ht : parse viewedSource with
  | error e =>
    rw [ht] at hrun
    cases hrun
  | ok t =>
    rw [ht] at hrun
    refine ⟨t, rfl, fun k hk => ?_, viewed_parse ht⟩
    obtain ⟨n, hn, hkind⟩ := List.any_eq_true.mp (List.all_eq_true.mp hrun k hk)
    exact ⟨n, hn, beq_iff_eq.mp hkind⟩

end SharpLint
