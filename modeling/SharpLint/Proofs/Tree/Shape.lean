import SharpLint.Tree.View

/-!
# Shapes of nodes

What the children of a node are, by the kind of the node. A child is known by its label: the kind of
the token, or the kind of the node. So a tree keeps its shape when a child is replaced by another one
of the same kind, or an operand by another expression.

    (t : Tree).Shaped        every node of t has the shape of its kind
    (t : Tree).Sound         … and no token but the end of the text is empty

Only the kinds that views, rules and the binder take apart have a form of their own; every other
expression has at least a token or an expression among its children, so that no expression is without
a token (`Tree.Shaped.hasWord`).
-/

namespace SharpLint

/-- The kinds of nodes that stand where a value is expected. -/
def NodeKind.isExpression : NodeKind → Bool
  | .identifierName | .predefinedType | .literalExpression | .thisExpression
  | .parenthesizedExpression | .castExpression | .simpleMemberAccessExpression
  | .invocationExpression | .elementAccessExpression | .objectCreationExpression
  | .implicitObjectCreationExpression | .arrayCreationExpression | .conditionalAccessExpression
  | .typeOfExpression | .defaultExpression | .baseExpression | .throwExpression
  | .simpleLambdaExpression | .parenthesizedLambdaExpression | .prefixUnaryExpression
  | .postfixUnaryExpression | .conditionalExpression | .isPatternExpression | .asExpression
  | .switchExpression | .interpolatedStringExpression => true
  | k => k.isBinary

/-- Records, whose declarations start with an identifier. -/
def NodeKind.isRecord : NodeKind → Bool
  | .recordDeclaration | .recordStructDeclaration => true
  | _ => false

/-- The word that starts a type declaration: its keyword, or the identifier `record`. -/
def NodeKind.typeWord : NodeKind → TokenKind
  | .classDeclaration => .keyword .kwClass
  | .structDeclaration => .keyword .kwStruct
  | .interfaceDeclaration => .keyword .kwInterface
  | .enumDeclaration => .keyword .kwEnum
  | .delegateDeclaration => .keyword .kwDelegate
  | _ => .identifier

/-! ## Labels -/

/-- What a node sees of a child. -/
inductive Label where
  | token (kind : TokenKind)
  | node (kind : NodeKind)
  deriving DecidableEq

namespace Label

/-- What has text: a token, the end of the text apart, an expression, or a list of arguments. -/
def isSolid : Label → Bool
  | .token k => k != .endOfFile
  | .node k => k.isExpression || k == .argumentList

theorem isSolid_of_isExpression {k : NodeKind} (h : k.isExpression = true) :
    (Label.node k).isSolid = true := by
  simp [isSolid, h]

/-- Kind of a token. -/
def tokenKind? : Label → Option TokenKind
  | .token k => some k
  | .node _ => none

/-- Kind of a node. -/
def nodeKind? : Label → Option NodeKind
  | .token _ => none
  | .node k => some k

end Label

/-- The label of a tree. -/
def Tree.label : Tree → Label
  | .token t => .token t.kind
  | .node k _ => .node k

namespace Tree

theorem exists_of_label_node {t : Tree} {k : NodeKind} (h : t.label = .node k) :
    ∃ cs, t = .node k cs := by
  cases t with
  | token t => cases h
  | node l cs =>
    cases h
    exact ⟨cs, rfl⟩

theorem exists_of_label_token {t : Tree} {k : TokenKind} (h : t.label = .token k) :
    ∃ u, t = .token u := by
  cases t with
  | token t => exact ⟨t, rfl⟩
  | node l cs => cases h

theorem exists_cons_of_labels_node {cs : List Tree} {k : NodeKind} {ls : List Label}
    (h : cs.map label = .node k :: ls) : ∃ ds rest, cs = .node k ds :: rest ∧ rest.map label = ls := by
  obtain ⟨c, rest, rfl, hc, hrest⟩ := List.map_eq_cons_iff.mp h
  obtain ⟨ds, rfl⟩ := exists_of_label_node hc
  exact ⟨ds, rest, rfl, hrest⟩

theorem exists_cons_of_labels_token {cs : List Tree} {k : TokenKind} {ls : List Label}
    (h : cs.map label = .token k :: ls) : ∃ t rest, cs = .token t :: rest ∧ rest.map label = ls := by
  obtain ⟨c, rest, rfl, hc, hrest⟩ := List.map_eq_cons_iff.mp h
  obtain ⟨t, rfl⟩ := exists_of_label_token hc
  exact ⟨t, rest, rfl, hrest⟩

end Tree

/-! ## Forms -/

/-- An operand, a sign and a name. -/
def IsMember (sign : TokenKind) (ls : List Label) : Prop :=
  ∃ e, e.isExpression = true ∧ ls = [.node e, .token sign, .node .identifierName]

/-- Two operands with a sign of one or two tokens between them. -/
def IsOperation (ls : List Label) : Prop :=
  ∃ e sign, ∃ signs : List TokenKind, ∃ f, e.isExpression = true ∧ f.isExpression = true ∧
    ls = .node e :: .token sign :: signs.map .token ++ [.node f]

/-- A colon, and perhaps the text of a format behind it. -/
def IsFormatClause (ls : List Label) : Prop :=
  ls = [.token .colon] ∨ ls = [.token .colon, .token .interpolatedFormatText]

/-- Tokens only. -/
def IsTokens (ls : List Label) : Prop := ∃ kinds : List TokenKind, ls = kinds.map .token

theorem IsTokens.exists_tokens {cs : List Tree} (h : IsTokens (cs.map Tree.label)) :
    ∃ ts : List Token, cs = ts.map .token := by
  obtain ⟨kinds, hkinds⟩ := h
  induction kinds generalizing cs with
  | nil => exact ⟨[], List.map_eq_nil_iff.mp hkinds⟩
  | cons k kinds ih =>
    obtain ⟨t, rest, rfl, hrest⟩ := Tree.exists_cons_of_labels_token hkinds
    obtain ⟨ts, rfl⟩ := ih hrest
    exact ⟨t :: ts, rfl⟩

/-- Attributes, and behind them the modifiers. -/
def IsHeader (ls : List Label) : Prop :=
  ∃ n, ls = List.replicate n (.node .attributeList) ++ [.node .modifierList]

/-- One node in the form of a type. -/
def IsType (ls : List Label) : Prop := ∃ t : NodeKind, t.isTypeForm = true ∧ ls = [.node t]

/-- What a type declaration has between its keyword and its name: a record perhaps a second keyword,
a delegate the type of its result. -/
def IsBetween (k : NodeKind) (ls : List Label) : Prop :=
  match k with
  | .recordDeclaration => ls = [] ∨ ls = [.token (.keyword .kwClass)]
  | .recordStructDeclaration => ls = [.token (.keyword .kwStruct)]
  | .delegateDeclaration => IsType ls
  | _ => ls = []

/-- The labels of so many arguments, with a comma between each two. -/
def argumentLabels (count : Nat) : List Label :=
  (List.replicate count (.node .argument)).intersperse (.token .comma)

theorem argumentLabels_succ (count : Nat) : argumentLabels (count + 1) =
    .node .argument :: (List.replicate count [.token .comma, .node .argument]).flatten := by
  induction count with
  | zero => rfl
  | succ count ih =>
    have hmore : argumentLabels (count + 2) =
        .node .argument :: .token .comma :: argumentLabels (count + 1) := rfl
    rw [hmore, ih, List.replicate_succ, List.flatten_cons]
    rfl

/-- Arguments in parentheses. -/
def IsArgumentList (ls : List Label) : Prop :=
  ∃ count, ls = .token .openParen :: (argumentLabels count ++ [.token .closeParen])

/-- Behind attributes and modifiers the word of the declaration, and further on the name. -/
def IsTypeDeclaration (k : NodeKind) (ls : List Label) : Prop :=
  ∃ header word between rest, IsHeader header ∧ word = k.typeWord ∧ IsBetween k between ∧
    ls = header ++ .token word :: (between ++ .token .identifier :: rest)

/-- A type and a name behind attributes and modifiers. -/
def IsMethod (ls : List Label) : Prop :=
  ∃ header t rest, IsHeader header ∧ t.isTypeForm = true ∧
    ls = header ++ .node t :: .token .identifier :: rest

/-- A type in parentheses and an operand. -/
def IsCast (ls : List Label) : Prop :=
  ∃ t e : NodeKind, t.isTypeForm = true ∧ e.isExpression = true ∧
    ls = [.token .openParen, .node t, .token .closeParen, .node e]

/-- An operand, the word `as` and a type. -/
def IsConversion (ls : List Label) : Prop :=
  ∃ e t : NodeKind, e.isExpression = true ∧ t.isTypeForm = true ∧
    ls = [.node e, .token (.keyword .kwAs), .node t]

/-- A word and a type in parentheses. -/
def IsTypeOperand (word : Keyword) (ls : List Label) : Prop :=
  ∃ t : NodeKind, t.isTypeForm = true ∧
    ls = [.token (.keyword word), .token .openParen, .node t, .token .closeParen]

/-- The children of a node, for the kinds that are taken apart. -/
def Form (k : NodeKind) (ls : List Label) : Prop :=
  match k with
  | .invocationExpression => ∃ e, e.isExpression = true ∧ ls = [.node e, .node .argumentList]
  | .argumentList => IsArgumentList ls
  | .simpleMemberAccessExpression => IsMember .dot ls
  | .conditionalAccessExpression => IsMember .questionDot ls
  | .parenthesizedExpression =>
    ∃ e, e.isExpression = true ∧ ls = [.token .openParen, .node e, .token .closeParen]
  | .interpolatedStringExpression =>
    ∃ rest, ls = .token .interpolatedStringStart :: rest ++ [.token .interpolatedStringEnd]
  | .interpolation =>
    ∃ e rest, e.isExpression = true ∧
      ls = .token .openBrace :: .node e :: rest ++ [.token .closeBrace]
  | .interpolationFormatClause => IsFormatClause ls
  | .modifierList => IsTokens ls
  | .namespaceDeclaration | .fileScopedNamespaceDeclaration =>
    ∃ name rest, (name = .identifierName ∨ name = .qualifiedName) ∧
      ls = .token (.keyword .kwNamespace) :: .node name :: rest
  | .methodDeclaration => IsMethod ls
  | .castExpression => IsCast ls
  | .asExpression => IsConversion ls
  | .defaultExpression => IsTypeOperand .kwDefault ls
  | .typeOfExpression => IsTypeOperand .kwTypeof ls
  | .literalExpression => ∃ k, ls = [.token k]
  | .prefixUnaryExpression => ∃ k rest, ls = .token k :: rest
  | k =>
    (k.isBinary = true → IsOperation ls) ∧ (k.isTypeDeclaration = true → IsTypeDeclaration k ls)

/-- The children that a node of a kind can have. -/
structure Shape (k : NodeKind) (ls : List Label) : Prop where
  form : Form k ls
  solid : (Label.node k).isSolid = true → ∃ l ∈ ls, l.isSolid = true

/-- The kinds whose children can be anything. -/
def NodeKind.isFree (k : NodeKind) : Bool :=
  match k with
  | .argumentList | .interpolation | .interpolationFormatClause | .modifierList
  | .namespaceDeclaration | .fileScopedNamespaceDeclaration | .methodDeclaration => false
  | k => !k.isExpression && !k.isTypeDeclaration

theorem shape_of_isFree {k : NodeKind} (h : k.isFree = true) (ls : List Label) : Shape k ls := by
  cases k
  all_goals first
    | (cases h; done)
    | exact ⟨⟨nofun, nofun⟩, nofun⟩

theorem NodeKind.isExpression_of_isBinary {k : NodeKind} (h : k.isBinary = true) :
    k.isExpression = true := by
  cases k
  all_goals first
    | (cases h; done)
    | rfl

theorem form_of_isBinary {k : NodeKind} (hk : k.isBinary = true) {ls : List Label}
    (h : IsOperation ls) : Form k ls := by
  cases k
  all_goals first
    | (cases hk; done)
    | exact ⟨fun _ => h, nofun⟩

theorem shape_of_isTypeDeclaration {k : NodeKind} (hk : k.isTypeDeclaration = true)
    {ls : List Label} (h : IsTypeDeclaration k ls) : Shape k ls := by
  cases k
  all_goals first
    | (cases hk; done)
    | exact ⟨⟨nofun, fun _ => h⟩, nofun⟩

namespace Tree

mutual

/-- Every node has the shape of its kind. -/
def Shaped : Tree → Prop
  | .token _ => True
  | .node k cs => Shape k (cs.map label) ∧ ShapedOf cs

/-- Every node of the trees has the shape of its kind. -/
def ShapedOf : List Tree → Prop
  | [] => True
  | c :: cs => c.Shaped ∧ ShapedOf cs

end

theorem shapedOf_iff {ts : List Tree} : ShapedOf ts ↔ ∀ t ∈ ts, t.Shaped := by
  induction ts with
  | nil => simp [ShapedOf]
  | cons t ts ih => simp [ShapedOf, ih]

theorem shapedOf_append {ts us : List Tree} :
    ShapedOf (ts ++ us) ↔ ShapedOf ts ∧ ShapedOf us := by
  simp only [shapedOf_iff, List.forall_mem_append]

/-- Some token of the tree is not the end of the text. -/
def HasWord (t : Tree) : Prop := ∃ u ∈ t.tokens, u.kind ≠ .endOfFile

theorem mem_tokensOf {ts : List Tree} {u : Token} : u ∈ tokensOf ts ↔ ∃ t ∈ ts, u ∈ t.tokens := by
  induction ts with
  | nil => simp [tokensOf]
  | cons t ts ih => simp [tokensOf, ih]

theorem hasWord_node {k : NodeKind} {cs : List Tree} {c : Tree} (hc : c ∈ cs) (h : c.HasWord) :
    (node k cs).HasWord := by
  obtain ⟨u, hu, hkind⟩ := h
  exact ⟨u, mem_tokensOf.mpr ⟨c, hc, hu⟩, hkind⟩

mutual

/-- No expression is without a token. -/
theorem Shaped.hasWord : (t : Tree) → t.Shaped → t.label.isSolid = true → t.HasWord
  | .token t, _, hk => ⟨t, List.mem_singleton_self t, bne_iff_ne.mp hk⟩
  | .node k cs, h, hk => by
    obtain ⟨l, hl, hsolid⟩ := h.1.solid hk
    obtain ⟨c, hc, rfl⟩ := List.mem_map.mp hl
    exact hasWord_node hc (ShapedOf.hasWord cs h.2 c hc hsolid)

theorem ShapedOf.hasWord : (cs : List Tree) → ShapedOf cs →
    ∀ c ∈ cs, c.label.isSolid = true → c.HasWord
  | [], _, c, hc, _ => nomatch hc
  | d :: cs, h, c, hc, hsolid => by
    rcases List.mem_cons.mp hc with hcd | hc
    · rw [hcd] at hsolid ⊢
      exact Shaped.hasWord d h.1 hsolid
    · exact ShapedOf.hasWord cs h.2 c hc hsolid

end

/-- A node with a token or an expression among its children has a token. -/
theorem Shaped.hasWord_of_mem {k : NodeKind} {cs : List Tree} (h : (node k cs).Shaped) {l : Label}
    (hl : l ∈ cs.map label) (hsolid : l.isSolid = true) : (node k cs).HasWord := by
  obtain ⟨c, hc, rfl⟩ := List.mem_map.mp hl
  exact hasWord_node hc (ShapedOf.hasWord cs h.2 c hc hsolid)

/-- A shaped tree in which no token but the end of the text is empty. -/
structure Sound (t : Tree) : Prop where
  shaped : t.Shaped
  spelled : ∀ u ∈ t.tokens, u.kind ≠ .endOfFile → u.text ≠ ""

end Tree

end SharpLint
