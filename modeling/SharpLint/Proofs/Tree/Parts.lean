import SharpLint.Proofs.Tree.Lookup

/-!
# Parts of shaped nodes

The views of a node look for its parts among its children. In a shaped tree they find them: what the
form of a kind says about labels becomes what the children are.

    n.childNodes.map kind = labels that are nodes         (map_kind_childNodes)

Calls, sums, parentheses, holes and interpolated strings have text besides each of their children
(`wide_of_sound`).
-/

namespace SharpLint.Node

open SharpLint.Tree

/-! ## Children and labels -/

theorem map_kind_childNodes (n : Node) :
    n.childNodes.map Node.kind = (n.children.map Tree.label).filterMap Label.nodeKind? := by
  suffices hfrom : ∀ cs i offset, (n.childNodesFrom i offset cs).map Node.kind =
      (cs.map Tree.label).filterMap Label.nodeKind? from hfrom n.children 0 n.offset
  intro cs
  induction cs with
  | nil => exact fun _ _ => rfl
  | cons c cs ih =>
    intro i offset
    cases c with
    | token t => exact ih (i + 1) (offset + t.fullWidth)
    | node k ds =>
      rw [childNodesFrom, List.map_cons, ih, List.map_cons, Tree.label,
        List.filterMap_cons_some (by rfl)]

theorem any_kind_childNodes (n : Node) (k : NodeKind) :
    n.childNodes.any (·.kind == k) = n.children.any (·.kind? == some k) := by
  suffices hfrom : ∀ cs i offset, (n.childNodesFrom i offset cs).any (·.kind == k) =
      cs.any (·.kind? == some k) from hfrom n.children 0 n.offset
  intro cs
  induction cs with
  | nil => exact fun _ _ => rfl
  | cons c cs ih =>
    intro i offset
    cases c with
    | token t => exact ih (i + 1) (offset + t.fullWidth)
    | node l ds =>
      rw [childNodesFrom, List.any_cons, List.any_cons, ih]
      rfl

theorem map_kind_childTokensFrom (n : Node) (i offset : Nat) (cs : List Tree) :
    (n.childTokensFrom i offset cs).map (·.token.kind) =
      (cs.map Tree.label).filterMap Label.tokenKind? := by
  induction cs generalizing i offset with
  | nil => rfl
  | cons c cs ih =>
    cases c with
    | token t =>
      rw [childTokensFrom, List.map_cons, ih, List.map_cons, Tree.label,
        List.filterMap_cons_some (by rfl)]
    | node k ds => exact ih (i + 1) (offset + widthOf ds)

theorem exists_mem_childNodes {n : Node} {k : NodeKind}
    (h : Label.node k ∈ n.children.map Tree.label) : ∃ m ∈ n.childNodes, m.kind = k := by
  rw [← List.mem_map, map_kind_childNodes]
  exact List.mem_filterMap.mpr ⟨_, h, rfl⟩

theorem exists_mem_childTokens {n : Node} {k : TokenKind}
    (h : Label.token k ∈ n.children.map Tree.label) : ∃ t ∈ n.childTokens, t.token.kind = k := by
  have hmem : k ∈ n.childTokens.map (·.token.kind) := by
    rw [childTokens, map_kind_childTokensFrom]
    exact List.mem_filterMap.mpr ⟨_, h, rfl⟩
  exact List.mem_map.mp hmem

/-- Child tokens of a kind, counted by labels. -/
theorem countP_childTokensFrom (n : Node) (i offset : Nat) (cs : List Tree) (k : TokenKind) :
    (n.childTokensFrom i offset cs).countP (·.token.kind == k) =
      (cs.map Tree.label).countP (· == .token k) := by
  have hkinds : (n.childTokensFrom i offset cs).countP (·.token.kind == k) =
      ((cs.map Tree.label).filterMap Label.tokenKind?).countP (· == k) := by
    rw [← map_kind_childTokensFrom, List.countP_map]
    rfl
  rw [hkinds]
  induction cs.map Tree.label with
  | nil => rfl
  | cons l ls ih =>
    cases l with
    | token t => simp [Label.tokenKind?, List.countP_cons, ih]
    | node k => simp [List.filterMap_cons, Label.tokenKind?, ih]

/-- A token among the children is among the child tokens, behind those of the children before it. -/
theorem childTokens_of_split {n : Node} {before rest : List Tree} {t : Token}
    (h : n.children = before ++ .token t :: rest) :
    n.childTokens = n.childTokensFrom 0 n.offset before ++
      ⟨t, n.offset + widthOf before, n, before.length⟩ ::
        n.childTokensFrom (before.length + 1) (n.offset + widthOf before + t.fullWidth) rest := by
  suffices hfrom : ∀ i offset, n.childTokensFrom i offset (before ++ .token t :: rest) =
      n.childTokensFrom i offset before ++ ⟨t, offset + widthOf before, n, i + before.length⟩ ::
        n.childTokensFrom (i + before.length + 1) (offset + widthOf before + t.fullWidth) rest by
    rw [childTokens, h, hfrom, Nat.zero_add]
  clear h
  induction before with
  | nil => exact fun _ _ => rfl
  | cons c before ih =>
    intro i offset
    have hindex : i + 1 + before.length = i + (before.length + 1) := by omega
    cases c with
    | token u =>
      rw [List.cons_append, childTokensFrom, ih, childTokensFrom, widthOf, ← Nat.add_assoc,
        List.length_cons, hindex]
      rfl
    | node k ds =>
      rw [List.cons_append, childTokensFrom, ih, childTokensFrom, widthOf, ← Nat.add_assoc,
        List.length_cons, hindex]
      rfl

theorem form {n : Node} {k : NodeKind} (h : n.tree.Shaped) (hk : n.kind = k) :
    Form k (n.children.map Tree.label) := by
  rw [← hk]
  exact h.1.form

theorem of_childOfKind? {n m : Node} {k : NodeKind} (h : n.childOfKind? k = some m) :
    m ∈ n.childNodes ∧ m.kind = k := by
  have hkind := @List.find?_some _ (fun c : Node => c.kind == k) m n.childNodes h
  exact ⟨List.mem_of_find?_eq_some h, beq_iff_eq.mp hkind⟩

/-! ## Expressions -/

/-- A member access has a receiver and a name. -/
theorem childNodes_memberAccess {n : Node} (h : n.tree.Shaped)
    (hk : n.kind = .simpleMemberAccessExpression) :
    ∃ receiver name sign, n.childNodes = [receiver, name] ∧
      n.children = [receiver.tree, .token sign, name.tree] ∧ receiver.kind.isExpression = true ∧
      name.kind = .identifierName ∧ sign.kind = .dot := by
  obtain ⟨e, he, hlabels⟩ := form h hk
  obtain ⟨cs, _, hchildren, hothers⟩ := exists_cons_of_labels_node hlabels
  obtain ⟨sign, _, rfl, hlast⟩ := exists_cons_of_labels_token hothers
  have hsign : sign.kind = .dot := Label.token.inj (List.cons.inj hothers).1
  obtain ⟨ds, _, rfl, hnone⟩ := exists_cons_of_labels_node hlast
  obtain rfl := List.map_eq_nil_iff.mp hnone
  refine ⟨⟨e, cs, n.offset, n.frame 0 :: n.above⟩,
    ⟨.identifierName, ds, n.offset + widthOf cs + sign.fullWidth, n.frame 2 :: n.above⟩, sign, ?_,
    hchildren, he, rfl, hsign⟩
  rw [childNodes, hchildren]
  rfl

/-- A call has a callee and a list of arguments. -/
theorem childNodes_invocation {n : Node} (h : n.tree.Shaped) (hk : n.kind = .invocationExpression) :
    ∃ callee list, n.childNodes = [callee, list] ∧ n.children = [callee.tree, list.tree] ∧
      callee.kind.isExpression = true ∧ list.kind = .argumentList := by
  obtain ⟨e, he, hlabels⟩ := form h hk
  obtain ⟨cs, _, hchildren, hlast⟩ := exists_cons_of_labels_node hlabels
  obtain ⟨ds, _, rfl, hnone⟩ := exists_cons_of_labels_node hlast
  obtain rfl := List.map_eq_nil_iff.mp hnone
  refine ⟨⟨e, cs, n.offset, n.frame 0 :: n.above⟩,
    ⟨.argumentList, ds, n.offset + widthOf cs, n.frame 1 :: n.above⟩, ?_, hchildren, he, rfl⟩
  rw [childNodes, hchildren]
  rfl

/-- A list of arguments has them between its parentheses, with commas. -/
theorem children_argumentList {n : Node} (h : n.tree.Shaped) (hk : n.kind = .argumentList) :
    ∃ opening arguments closing count,
      n.children = .token opening :: (arguments ++ [.token closing]) ∧
      (arguments ++ [.token closing]).map Tree.label =
        argumentLabels count ++ [.token .closeParen] := by
  obtain ⟨count, hlabels⟩ := form h hk
  obtain ⟨opening, rest, hchildren, hrest⟩ := exists_cons_of_labels_token hlabels
  obtain ⟨arguments, _, rfl, -, hlast⟩ := List.map_eq_append_iff.mp hrest
  obtain ⟨closing, _, rfl, hnone⟩ := exists_cons_of_labels_token hlast
  obtain rfl := List.map_eq_nil_iff.mp hnone
  exact ⟨opening, arguments, closing, count, hchildren, hrest⟩

theorem isBinary_form {n : Node} (h : n.tree.Shaped) (hk : n.kind.isBinary = true) :
    IsOperation (n.children.map Tree.label) := by
  have hform := form h rfl
  cases hkind : n.kind
  all_goals rw [hkind] at hk hform
  all_goals first
    | (cases hk; done)
    | exact hform.1 rfl

/-- An operation has two operands and a sign. -/
theorem childNodes_operation {n : Node} (h : n.tree.Shaped) (hk : n.kind.isBinary = true) :
    ∃ left right sign others, n.childNodes = [left, right] ∧ n.childTokens = sign :: others ∧
      left.kind.isExpression = true ∧ right.kind.isExpression = true := by
  obtain ⟨e, sign, signs, f, he, hf, hlabels⟩ := isBinary_form h hk
  have hsigns : (signs.map Label.token).filterMap Label.nodeKind? = [] := by
    rw [List.filterMap_map]
    exact List.filterMap_eq_nil_iff.mpr fun _ _ => rfl
  have hkinds : n.childNodes.map Node.kind = [e, f] := by
    rw [map_kind_childNodes, hlabels, List.cons_append, List.cons_append,
      List.filterMap_cons_some (by rfl), List.filterMap_cons_none (by rfl), List.filterMap_append,
      hsigns]
    rfl
  have htokens : ∃ ks, n.childTokens.map (·.token.kind) = sign :: ks := by
    rw [childTokens, map_kind_childTokensFrom, hlabels]
    exact ⟨_, rfl⟩
  obtain ⟨ks, hks⟩ := htokens
  obtain ⟨left, _, hnodes, rfl, hright⟩ := List.map_eq_cons_iff.mp hkinds
  obtain ⟨right, rfl, rfl⟩ := List.map_eq_singleton_iff.mp hright
  obtain ⟨first, others, hfirst, -, -⟩ := List.map_eq_cons_iff.mp hks
  exact ⟨left, right, first, others, hnodes, hfirst, he, hf⟩

/-- A sum has two operands. -/
theorem isExpression_of_operand {n m : Node} (h : n.tree.Shaped) (hk : n.kind = .addExpression)
    (hm : m ∈ n.childNodes) : m.kind.isExpression = true := by
  obtain ⟨left, right, _, _, hnodes, -, hleft, hright⟩ :=
    childNodes_operation h (by rw [hk]; rfl)
  rw [hnodes, List.mem_cons, List.mem_singleton] at hm
  rcases hm with rfl | rfl
  · exact hleft
  · exact hright

/-- Parentheses stand around one expression. -/
theorem childNodes_parenthesized {n : Node} (h : n.tree.Shaped)
    (hk : n.kind = .parenthesizedExpression) :
    ∃ inner, n.childNodes = [inner] ∧ inner.kind.isExpression = true := by
  obtain ⟨e, he, hlabels⟩ := form h hk
  have hkinds : n.childNodes.map Node.kind = [e] := by
    rw [map_kind_childNodes, hlabels]
    rfl
  obtain ⟨inner, hnodes, rfl⟩ := List.map_eq_singleton_iff.mp hkinds
  exact ⟨inner, hnodes, he⟩

/-- A cast has a type and an operand. -/
theorem childNodes_cast {n : Node} (h : n.tree.Shaped) (hk : n.kind = .castExpression) :
    ∃ type operand, n.childNodes = [type, operand] ∧ type.kind.isTypeForm = true ∧
      operand.kind.isExpression = true := by
  obtain ⟨t, e, ht, he, hlabels⟩ := form h hk
  have hkinds : n.childNodes.map Node.kind = [t, e] := by
    rw [map_kind_childNodes, hlabels]
    rfl
  obtain ⟨type, _, hnodes, rfl, hlast⟩ := List.map_eq_cons_iff.mp hkinds
  obtain ⟨operand, rfl, rfl⟩ := List.map_eq_singleton_iff.mp hlast
  exact ⟨type, operand, hnodes, ht, he⟩

/-- A conversion with `as` has an operand and a type. -/
theorem childNodes_conversion {n : Node} (h : n.tree.Shaped) (hk : n.kind = .asExpression) :
    ∃ operand type, n.childNodes = [operand, type] ∧ operand.kind.isExpression = true ∧
      type.kind.isTypeForm = true := by
  obtain ⟨e, t, he, ht, hlabels⟩ := form h hk
  have hkinds : n.childNodes.map Node.kind = [e, t] := by
    rw [map_kind_childNodes, hlabels]
    rfl
  obtain ⟨operand, _, hnodes, rfl, hlast⟩ := List.map_eq_cons_iff.mp hkinds
  obtain ⟨type, rfl, rfl⟩ := List.map_eq_singleton_iff.mp hlast
  exact ⟨operand, type, hnodes, he, ht⟩

/-- A default value has a type. -/
theorem childNodes_default {n : Node} (h : n.tree.Shaped) (hk : n.kind = .defaultExpression) :
    ∃ type, n.childNodes = [type] ∧ type.kind.isTypeForm = true := by
  obtain ⟨t, ht, hlabels⟩ := form h hk
  have hkinds : n.childNodes.map Node.kind = [t] := by
    rw [map_kind_childNodes, hlabels]
    rfl
  obtain ⟨type, hnodes, rfl⟩ := List.map_eq_singleton_iff.mp hkinds
  exact ⟨type, hnodes, ht⟩

/-- A hole starts with its expression. -/
theorem childNodes_interpolation {n : Node} (h : n.tree.Shaped) (hk : n.kind = .interpolation) :
    ∃ e rest, n.childNodes = e :: rest ∧ e.kind.isExpression = true := by
  obtain ⟨e, rest, he, hlabels⟩ := form h hk
  have hkinds : n.childNodes.map Node.kind =
      e :: (rest ++ [Label.token .closeBrace]).filterMap Label.nodeKind? := by
    rw [map_kind_childNodes, hlabels]
    rfl
  obtain ⟨expression, others, hnodes, rfl, -⟩ := List.map_eq_cons_iff.mp hkinds
  exact ⟨expression, others, hnodes, he⟩

/-! ## Text around children -/

/-- The kinds with text besides each of their children. -/
def isWide : NodeKind → Bool
  | .invocationExpression | .addExpression | .parenthesizedExpression
  | .interpolatedStringExpression | .interpolation => true
  | _ => false

theorem wide_of_ends {n : Node} (hn : n.tree.Sound) {first last : Label} (mid : List Label)
    (hlabels : n.children.map Tree.label = first :: mid ++ [last]) (hfirst : first.isSolid = true)
    (hlast : last.isSolid = true) : n.Wide := by
  refine wide_of_two_le hn ?_
  rw [hlabels, List.countP_append, List.countP_cons_of_pos hfirst, List.countP_singleton,
    if_pos hlast]
  omega

theorem wide_of_sound {n : Node} (hn : n.tree.Sound) (hk : isWide n.kind = true) : n.Wide := by
  have hshaped := hn.shaped
  cases hkind : n.kind
  case invocationExpression =>
    obtain ⟨e, he, hlabels⟩ := form hshaped hkind
    exact wide_of_ends hn [] hlabels (Label.isSolid_of_isExpression he) rfl
  case addExpression =>
    obtain ⟨e, sign, signs, f, he, hf, hlabels⟩ := (form hshaped hkind).1 rfl
    exact wide_of_ends hn _ hlabels (Label.isSolid_of_isExpression he)
      (Label.isSolid_of_isExpression hf)
  case parenthesizedExpression =>
    obtain ⟨e, -, hlabels⟩ := form hshaped hkind
    exact wide_of_ends hn [.node e] hlabels rfl rfl
  case interpolatedStringExpression =>
    obtain ⟨rest, hlabels⟩ := form hshaped hkind
    exact wide_of_ends hn _ hlabels rfl rfl
  case interpolation =>
    obtain ⟨e, rest, -, hlabels⟩ := form hshaped hkind
    exact wide_of_ends hn _ hlabels rfl rfl
  all_goals
    rw [hkind] at hk
    cases hk

/-! ## Declarations -/

theorem isTypeDeclaration_form {n : Node} (h : n.tree.Shaped)
    (hk : n.kind.isTypeDeclaration = true) :
    IsTypeDeclaration n.kind (n.children.map Tree.label) := by
  have hform := form h rfl
  cases hkind : n.kind
  all_goals rw [hkind] at hk hform
  all_goals first
    | (cases hk; done)
    | exact hform.2 rfl

/-- A type declaration that starts with an identifier is a record. -/
theorem typeWord_eq_identifier_iff {k : NodeKind} (hk : k.isTypeDeclaration = true) :
    k.typeWord = .identifier ↔ k.isRecord = true := by
  cases k
  all_goals first
    | (cases hk; done)
    | simp [NodeKind.typeWord, NodeKind.isRecord]

/-- No identifier stands in front of the name of a type, but the word `record`. -/
theorem countP_front {k : NodeKind} {header between : List Label} (hk : k.isTypeDeclaration = true)
    (hheader : IsHeader header) (hbetween : IsBetween k between) :
    (header ++ .token k.typeWord :: between).countP (· == .token .identifier) =
      if k.isRecord then 1 else 0 := by
  have hheader : header.countP (· == Label.token .identifier) = 0 := by
    obtain ⟨n, rfl⟩ := hheader
    simp [List.countP_replicate]
  have hbetween : between.countP (· == Label.token .identifier) = 0 := by
    unfold IsBetween at hbetween
    split at hbetween
    · obtain rfl | rfl := hbetween
      · rfl
      · rfl
    · rw [hbetween]
      rfl
    · obtain ⟨t, -, rfl⟩ := hbetween
      rfl
    · rw [hbetween]
      rfl
  rw [List.countP_append, hheader, List.countP_cons, hbetween]
  simp [typeWord_eq_identifier_iff hk]

theorem typeName?_eq (n : Node) :
    n.typeName? = (n.childTokens.filter (·.token.kind == .identifier))[if n.kind.isRecord then 1
      else 0]? := by
  unfold typeName? NodeKind.isRecord
  cases n.kind
  all_goals rfl

/-- Attributes and modifiers stand in front of a type declaration, then comes a word; the name is the
first identifier behind this word. -/
theorem exists_typeName_split {n : Node} (h : n.tree.Shaped)
    (hk : n.kind.isTypeDeclaration = true) :
    ∃ attributes list word between name rest, n.children =
        attributes ++ .node .modifierList list :: .token word :: between ++ .token name :: rest ∧
      (∀ c ∈ attributes, c.label = .node .attributeList) ∧
      IsBetween n.kind (between.map Tree.label) ∧ name.kind = .identifier ∧
      n.typeName? = some ⟨name,
        n.offset + widthOf (attributes ++ .node .modifierList list :: .token word :: between), n,
        (attributes ++ .node .modifierList list :: .token word :: between).length⟩ := by
  obtain ⟨_, _, _, _, hheader, rfl, hbetween, hlabels⟩ := isTypeDeclaration_form h hk
  have hfront := countP_front hk hheader hbetween
  obtain ⟨count, rfl⟩ := hheader
  rw [← List.cons_append, ← List.append_assoc] at hlabels
  obtain ⟨front, _, hchildren, hbefore, hafter⟩ := List.map_eq_append_iff.mp hlabels
  obtain ⟨_, rest, rfl, hlabel, -⟩ := List.map_eq_cons_iff.mp hafter
  obtain ⟨name, rfl⟩ := exists_of_label_token hlabel
  have hname : name.kind = .identifier := Label.token.inj hlabel
  have hcount : ((n.childTokensFrom 0 n.offset front).filter
      (·.token.kind == .identifier)).length = if n.kind.isRecord then 1 else 0 := by
    rw [← List.countP_eq_length_filter, countP_childTokensFrom, hbefore, hfront]
  have htypeName : n.typeName? = some ⟨name, n.offset + widthOf front, n, front.length⟩ := by
    rw [typeName?_eq, childTokens_of_split hchildren, List.filter_append, List.filter_cons,
      if_pos (beq_iff_eq.mpr hname), List.getElem?_append_right (Nat.le_of_eq hcount), hcount,
      Nat.sub_self]
    rfl
  -- what stands in front of the name
  rw [List.append_assoc] at hbefore
  obtain ⟨attributes, _, rfl, hattributes, hlist⟩ := List.map_eq_append_iff.mp hbefore
  obtain ⟨list, _, rfl, hword⟩ := exists_cons_of_labels_node hlist
  obtain ⟨word, between, rfl, rfl⟩ := exists_cons_of_labels_token hword
  refine ⟨attributes, list, word, between, name, rest, hchildren, fun c hc => ?_, hbetween, hname,
    htypeName⟩
  have hmem : c.label ∈ attributes.map Tree.label := List.mem_map_of_mem hc
  rw [hattributes] at hmem
  exact List.eq_of_mem_replicate hmem

/-- A declared type has a name. -/
theorem exists_typeName {n : Node} (h : n.tree.Shaped) (hk : n.kind.isTypeDeclaration = true) :
    ∃ name, n.typeName? = some name := by
  obtain ⟨_, _, _, _, _, _, -, -, -, -, hname⟩ := exists_typeName_split h hk
  exact ⟨_, hname⟩

/-- A type declaration has an identifier among its children. -/
theorem identifier_mem_labels {n : Node} (h : n.tree.Shaped) (hk : n.kind.isTypeDeclaration = true) :
    Label.token .identifier ∈ n.children.map Tree.label := by
  obtain ⟨header, word, between, rest, -, -, -, hlabels⟩ := isTypeDeclaration_form h hk
  rw [hlabels]
  simp

/-- A type declaration has a token in it. -/
theorem hasWord_typeDeclaration {n : Node} (h : n.tree.Shaped)
    (hk : n.kind.isTypeDeclaration = true) : n.tree.HasWord :=
  h.hasWord_of_mem (identifier_mem_labels h hk) rfl

/-- A method has a type and a name. -/
theorem exists_typeAndName {n : Node} (h : n.tree.Shaped) (hk : n.kind = .methodDeclaration) :
    (∃ type, n.declaredType? = some type) ∧ ∃ name, n.declaredName? = some name := by
  obtain ⟨header, t, rest, -, ht, hlabels⟩ := form h hk
  have htype : Label.node t ∈ n.children.map Tree.label := by
    rw [hlabels]
    exact List.mem_append_right header List.mem_cons_self
  have hname : Label.token .identifier ∈ n.children.map Tree.label := by
    rw [hlabels]
    exact List.mem_append_right header (List.mem_cons_of_mem _ List.mem_cons_self)
  obtain ⟨type, hmem, rfl⟩ := exists_mem_childNodes htype
  obtain ⟨name, hmem', hkind⟩ := exists_mem_childTokens hname
  exact ⟨Option.isSome_iff_exists.mp (List.find?_isSome.mpr ⟨type, hmem, ht⟩),
    Option.isSome_iff_exists.mp (List.find?_isSome.mpr ⟨name, hmem', beq_iff_eq.mpr hkind⟩)⟩

theorem isNamespaceDeclaration_form {n : Node} (h : n.tree.Shaped)
    (hk : n.kind.isNamespaceDeclaration = true) :
    ∃ name rest, (name = .identifierName ∨ name = .qualifiedName) ∧
      n.children.map Tree.label = .token (.keyword .kwNamespace) :: .node name :: rest := by
  cases hkind : n.kind
  case namespaceDeclaration => exact form h hkind
  case fileScopedNamespaceDeclaration => exact form h hkind
  all_goals
    rw [hkind] at hk
    cases hk

/-- A namespace has a name. -/
theorem exists_namespaceName {n : Node} (h : n.tree.Shaped)
    (hk : n.kind.isNamespaceDeclaration = true) : ∃ name, n.namespaceName? = some name := by
  obtain ⟨name, rest, hname, hlabels⟩ := isNamespaceDeclaration_form h hk
  have hkinds : n.childNodes.map Node.kind = name :: rest.filterMap Label.nodeKind? := by
    rw [map_kind_childNodes, hlabels]
    rfl
  obtain ⟨first, others, hnodes, rfl, -⟩ := List.map_eq_cons_iff.mp hkinds
  refine ⟨first, ?_⟩
  rw [namespaceName?, hnodes]
  exact List.find?_cons_of_pos (by simpa using hname)

theorem label_of_isTypeDeclaration {n : Node} (hk : n.kind.isTypeDeclaration = true) :
    n.tree.label.isSolid = false := by
  show (Label.node n.kind).isSolid = false
  cases hkind : n.kind
  all_goals rw [hkind] at hk
  all_goals first
    | (cases hk; done)
    | rfl

/-- A type that stands directly in a namespace has not the span of the namespace. -/
theorem tight_of_isNamespaceDeclaration {p n : Node} (hp : p.tree.Sound)
    (hk : p.kind.isNamespaceDeclaration = true) (hn : n ∈ p.childNodes)
    (htype : n.kind.isTypeDeclaration = true) : n.Tight := by
  have hshaped : n.tree.Shaped := shapedOf_iff.mp hp.shaped.2 _ (tree_mem_children hn)
  obtain ⟨name, rest, -, hlabels⟩ := isNamespaceDeclaration_form hp.shaped hk
  intro q hq
  rw [parent?_of_mem_childNodes hn, Option.some.injEq] at hq
  rw [← hq]
  refine span_ne_of_mem_childNodes hp hn (hasWord_typeDeclaration hshaped htype) ?_
  rw [label_of_isTypeDeclaration htype, hlabels, List.countP_cons_of_pos rfl]
  exact Nat.succ_pos _

end SharpLint.Node
