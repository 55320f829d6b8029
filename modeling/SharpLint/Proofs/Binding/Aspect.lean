import SharpLint.Proofs.Binding.Host
import SharpLint.Proofs.Repair.Comments
import SharpLint.Proofs.Rule.Implicit
import SharpLint.Proofs.Tree.Skeleton

/-!
# Types of skeletons

The type that a scope gives to an expression depends on its skeleton and on the names of the types and
namespaces around it, and on nothing else. `Skeleton.aspect?` computes it from the leaves up. What a node
sees of a child is the aspect of the child, so that a child with the same aspect may take its place.

    scope.typeOf? n = (n.aspect? scope).bind Aspect.type                            (typeOf?_eq)

Both look-ups of a scope go down the tree with fuel; one step of them is `Parts.type`, from parts that
the look-up with less fuel gives, and from parts that the aspects of the children give.
-/

namespace SharpLint

open SharpLint.Tree

/-! ## One step -/

/-- What the type of an expression is made of. -/
structure Parts where
  literal : Option TypeRef
  symbol : Option SymbolInfo
  call : Option TypeRef
  /-- The type of what stands in parentheses. -/
  inner : Option TypeRef
  declared : Option TypeRef
  this : Option TypeRef
  sign : Option TokenKind
  operand : Nat → Option TypeRef
  hasOperand : Nat → Bool
  /-- The type of the first arm. -/
  arm : Option TypeRef

/-- The type of an expression with these parts. -/
def Parts.type (p : Parts) (kind : NodeKind) : Option TypeRef :=
  match kind with
  | .literalExpression => p.literal
  | .interpolatedStringExpression => some (.ofSpecial .string)
  | .identifierName | .simpleMemberAccessExpression | .conditionalAccessExpression =>
    p.symbol.bind Scope.valueType?
  | .invocationExpression => p.call
  | .parenthesizedExpression => p.inner
  | .castExpression | .objectCreationExpression | .arrayCreationExpression | .asExpression
  | .defaultExpression => p.declared
  | .conditionalExpression => p.operand 1
  | .elementAccessExpression => (p.operand 0).bind TypeRef.element?
  | .thisExpression => p.this
  | .prefixUnaryExpression =>
    p.sign.bind fun k => if k = .bang then some (.ofSpecial .boolean) else p.operand 0
  | .postfixUnaryExpression => p.operand 0
  | .logicalAndExpression | .logicalOrExpression | .isPatternExpression =>
    some (.ofSpecial .boolean)
  | .coalesceExpression => ((p.operand 0).map TypeRef.stripNullable).or (p.operand 1)
  | .switchExpression => p.arm
  | .bitwiseAndExpression | .bitwiseOrExpression | .exclusiveOrExpression =>
    Scope.bitwiseType? (p.operand 0) (p.operand 1)
  | .leftShiftExpression | .rightShiftExpression =>
    (p.operand 0).bind fun l => l.promote? (.ofSpecial .int32)
  | .addExpression | .subtractExpression | .multiplyExpression | .divideExpression
  | .moduloExpression =>
    if !p.hasOperand 0 || !p.hasOperand 1 then none
    else Scope.arithmeticType? kind (p.operand 0) (p.operand 1)
  | kind =>
    if kind.isComparison then some (.ofSpecial .boolean)
    else if kind.isAssignment then p.operand 0
    else none

/-- Parts that agree where the type depends on them give the same type. -/
theorem Parts.type_congr {p q : Parts} {k : NodeKind}
    (literal : k = .literalExpression → p.literal = q.literal)
    (symbol : k = .identifierName ∨ k = .simpleMemberAccessExpression ∨
      k = .conditionalAccessExpression → p.symbol = q.symbol)
    (call : k = .invocationExpression → p.call = q.call)
    (inner : k = .parenthesizedExpression → p.inner = q.inner)
    (declared : p.declared = q.declared) (this : p.this = q.this)
    (sign : k = .prefixUnaryExpression → p.sign = q.sign)
    (operand : k ≠ .simpleMemberAccessExpression → k ≠ .conditionalAccessExpression →
      p.operand = q.operand)
    (hasOperand : p.hasOperand = q.hasOperand)
    (arm : k = .switchExpression → p.arm = q.arm) : p.type k = q.type k := by
  cases k
  all_goals first
    | rfl
    | exact literal rfl
    | exact congrArg (·.bind Scope.valueType?) (symbol (by simp))
    | exact call rfl
    | exact inner rfl
    | exact declared
    | exact this
    | exact arm rfl
    | (have hsame := operand nofun nofun; simp only [type, hsame, hasOperand]; done)
    | (have hsame := operand nofun nofun; simp only [type, hsame, sign rfl])

namespace Scope

variable (scope : Scope)

def partsUpTo (fuel : Nat) (n : Node) : Parts where
  literal := literalType? n
  symbol := scope.symbol? n
  call := scope.callType? n
  inner := scope.typeUpTo fuel n.unparenthesize
  declared := SymbolTable.typeDeclaredAt? n
  this := (qualifiedName? n).map fun name => .named (simpleName name)
  sign := n.tree.firstToken?.map Token.kind
  operand i := (n.childNode? i).bind (scope.typeUpTo fuel)
  hasOperand i := (n.childNode? i).isSome
  arm := (n.childOfKind? .switchExpressionArm).bind fun arm =>
    arm.childNodes.getLast?.bind (scope.typeUpTo fuel)

theorem typeUpTo_succ (fuel : Nat) (n : Node) :
    scope.typeUpTo (fuel + 1) n = (scope.partsUpTo fuel n).type n.kind := by
  rw [typeUpTo]
  have hnone (o : Option Node) : (!o.isSome) = o.isNone := by
    cases o
    all_goals rfl
  generalize n.kind = k
  cases k
  case prefixUnaryExpression =>
    show _ = (n.tree.firstToken?.map Token.kind).bind _
    cases n.tree.firstToken? with
    | none => rfl
    | some t => rfl
  all_goals first
    | rfl
    | simp only [Parts.type, partsUpTo, hnone]

end Scope

/-! ## Aspects -/

/-- What the node around a tree sees of it. -/
structure Aspect where
  kind : NodeKind
  /-- The text of a node in the form of a type. -/
  name : String
  symbol : Option SymbolInfo
  type : Option TypeRef
  /-- The name of the member that is accessed. -/
  member : Option String
  /-- The type of what the member is taken of, or that of an arm. -/
  inner : Option TypeRef

namespace Skeleton

/-- The kind and the text of a word. -/
def word? : Skeleton → Option (TokenKind × String)
  | .word k text => some (k, text)
  | .node _ _ => none

def head? : Skeleton → Option Head
  | .word _ _ => none
  | .node head _ => some head

/-- The name that a type or a namespace with these children gives to what is inside. -/
def ownName? (k : NodeKind) (cs : List Skeleton) : Option (Option String) :=
  if k.isTypeDeclaration then
    some (((cs.filterMap word?).filter (·.1 == .identifier))[if k.isRecord then 1 else 0]?.map Prod.snd)
  else if k.isNamespaceDeclaration then
    some (((cs.filterMap head?).find? fun head => Rule.SupportNamespace.isName head.kind).map Head.name)
  else none

end Skeleton

/-- The full name that some names around each other make, the innermost first. -/
def qualified? (names : List (Option String)) : Option String :=
  if names.isEmpty || names.any Option.isNone then none
  else some (joinWith "." (names.filterMap id).reverse)

/-- Type of a literal by its token. -/
def wordType? (k : TokenKind) (text : String) : Option TypeRef :=
  let special? : Option SpecialType := match k with
    | .stringLiteral => some .string
    | .charLiteral => some .char
    | .keyword .kwTrue | .keyword .kwFalse => some .boolean
    | .numericLiteral => some (numericLiteralType text)
    | _ => none
  special?.map TypeRef.ofSpecial

namespace Aspect

variable (scope : Scope)

/-- The type that a node names; `var` names none. -/
def declared? (a : Aspect) : Option TypeRef :=
  if a.kind = .identifierName ∧ a.name = "var" then none else some (.ofName a.name)

/-- The symbol of a node, unless it is the name of a member. -/
def symbolOf (head : Head) (nodes : List Aspect) : Option SymbolInfo :=
  match head.kind with
  | .identifierName => scope.nameSymbol? head.name
  | .simpleMemberAccessExpression | .conditionalAccessExpression =>
    nodes[1]?.bind fun a => scope.table.member? a.name
  | .parenthesizedExpression => nodes[0]?.bind symbol
  | _ => none

theorem symbolOf_identifier {scope : Scope} {head : Head} {nodes : List Aspect}
    (h : head.kind = .identifierName) : symbolOf scope head nodes = scope.nameSymbol? head.name := by
  rw [symbolOf, h]

theorem symbolOf_access {scope : Scope} {head : Head} {nodes : List Aspect}
    (h : head.kind = .simpleMemberAccessExpression ∨ head.kind = .conditionalAccessExpression) :
    symbolOf scope head nodes = nodes[1]?.bind fun a => scope.table.member? a.name := by
  rcases h with h | h
  · rw [symbolOf, h]
  · rw [symbolOf, h]

theorem symbolOf_other {scope : Scope} {head : Head} {nodes : List Aspect}
    (hname : head.kind ≠ .identifierName) (hmember : head.kind ≠ .simpleMemberAccessExpression)
    (hconditional : head.kind ≠ .conditionalAccessExpression)
    (hinner : head.kind ≠ .parenthesizedExpression) : symbolOf scope head nodes = none := by
  unfold symbolOf
  split
  all_goals first | rfl | contradiction

/-- The type of a call of a callee. -/
def callType? (callee : Aspect) : Option TypeRef :=
  if callee.member.any (· == "ToString") then some (.ofSpecial .string)
  else
    match callee.symbol with
    | some s => if s.kind = .method then s.type else none
    | none => none

/-- The parts of a node with these names around it, and with these words and nodes for children. -/
def parts (names : List (Option String)) (head : Head) (words : List (TokenKind × String))
    (nodes : List Aspect) : Parts where
  literal := words.head?.bind fun w => wordType? w.1 w.2
  symbol := symbolOf scope head nodes
  call := nodes[0]?.bind callType?
  inner := nodes[0]?.bind type
  declared := (nodes.find? (·.kind.isTypeForm)).bind declared?
  this := (qualified? names).map fun name => .named (simpleName name)
  sign := words.head?.map Prod.fst
  operand i := nodes[i]?.bind type
  hasOperand i := nodes[i]?.isSome
  arm := (nodes.find? (·.kind == .switchExpressionArm)).bind inner

/-- The aspect of a node, from those of its children. -/
def of (names : List (Option String)) (head : Head) (words : List (TokenKind × String))
    (nodes : List Aspect) : Aspect where
  kind := head.kind
  name := head.name
  symbol := symbolOf scope head nodes
  type := (parts scope names head words nodes).type head.kind
  member :=
    if head.kind = .simpleMemberAccessExpression then some ((nodes[1]?.map name).getD "") else none
  inner :=
    if head.kind = .simpleMemberAccessExpression then nodes[0]?.bind type
    else if head.kind = .switchExpressionArm then nodes.getLast?.bind type
    else none

end Aspect

namespace Skeleton

variable (scope : Scope)

mutual

/-- The aspect of a node with some names around it; a word has none. -/
def aspect? (around : List (Option String)) : Skeleton → Option Aspect
  | .word _ _ => none
  | .node head cs =>
    let names := (ownName? head.kind cs).toList ++ around
    some (.of scope names head (cs.filterMap word?) (aspects names cs))

/-- The aspects of the nodes among some children. -/
def aspects (names : List (Option String)) : List Skeleton → List Aspect
  | [] => []
  | c :: cs => (aspect? names c).toList ++ aspects names cs

end

variable {scope}

theorem aspects_eq_filterMap (names : List (Option String)) (cs : List Skeleton) :
    aspects scope names cs = cs.filterMap (aspect? scope names) := by
  induction cs with
  | nil => rfl
  | cons c cs ih =>
    rw [aspects, ih]
    cases h : aspect? scope names c with
    | none => rw [List.filterMap_cons_none h]; rfl
    | some a => rw [List.filterMap_cons_some h]; rfl

end Skeleton

/-! ## Nodes -/

namespace Node

/-- The name that a node gives to what is inside of it. -/
def ownName? (n : Node) : Option (Option String) :=
  if n.kind.isTypeDeclaration then some (n.typeName?.map (·.token.text))
  else if n.kind.isNamespaceDeclaration then some (n.namespaceName?.map Node.text)
  else none

/-- The names of the types and namespaces around a node. -/
def namesAround (n : Node) : List (Option String) := (ofFrames n.above).filterMap ownName?

/-- The names around a node and its own. -/
def names (n : Node) : List (Option String) := n.ancestorsAndSelf.filterMap ownName?

theorem names_eq (n : Node) : n.names = n.ownName?.toList ++ n.namesAround := by
  rw [names, ancestorsAndSelf]
  cases h : n.ownName? with
  | none => rw [List.filterMap_cons_none h]; rfl
  | some name => rw [List.filterMap_cons_some h]; rfl

theorem qualifiedName?_eq (n : Node) : qualifiedName? n = qualified? n.names := rfl

theorem namesAround_of_mem_childNodes {n m : Node} (h : m ∈ n.childNodes) :
    m.namesAround = n.names := by
  rw [namesAround, ofFrames_of_mem_childNodes h]
  rfl

/-- The children of a node, without trivia. -/
def body (n : Node) : List Skeleton :=
  if n.kind = .modifierList then [] else skeletons n.children

/-- The aspect of a node in its place. -/
def aspect (n : Node) (scope : Scope) : Aspect :=
  let names := (Skeleton.ownName? n.kind n.body).toList ++ n.namesAround
  .of scope names (head n.kind n.children) (n.body.filterMap Skeleton.word?)
    (Skeleton.aspects scope names n.body)

theorem aspect?_skeleton (n : Node) (scope : Scope) :
    n.tree.skeleton.aspect? scope n.namesAround = some (n.aspect scope) := rfl

/-! ## Children -/

variable {scope : Scope} {n : Node}

theorem body_eq (h : n.kind ≠ .modifierList) : n.body = n.children.map skeleton := by
  rw [body, if_neg h, skeletons_eq_map]

theorem filterMap_children {β : Type} {f : Tree → Option β} (hf : ∀ t, f (.token t) = none)
    (n : Node) : n.children.filterMap f = n.childNodes.filterMap fun m => f m.tree := by
  suffices hfrom : ∀ cs i offset, cs.filterMap f =
      (n.childNodesFrom i offset cs).filterMap fun m => f m.tree from hfrom n.children 0 n.offset
  intro cs
  induction cs with
  | nil => exact fun _ _ => rfl
  | cons c cs ih =>
    intro i offset
    cases c with
    | token t =>
      rw [List.filterMap_cons_none (hf t)]
      exact ih (i + 1) (offset + t.fullWidth)
    | node k ds =>
      rw [childNodesFrom, List.filterMap_cons, List.filterMap_cons,
        ih (i + 1) (offset + widthOf ds)]
      rfl

theorem heads_body (h : n.kind ≠ .modifierList) :
    n.body.filterMap Skeleton.head? = n.childNodes.map fun m => head m.kind m.children := by
  rw [body_eq h, List.filterMap_map, filterMap_children fun _ => rfl, ← List.filterMap_eq_map]
  rfl

theorem words_body (h : n.kind ≠ .modifierList) :
    n.body.filterMap Skeleton.word? = n.childTokens.map fun t => (t.token.kind, t.token.text) := by
  have htokens : n.childTokens.map (fun t => (t.token.kind, t.token.text)) =
      (Repair.Visibility.tokensAmong n.children).map fun t => (t.kind, t.text) := by
    rw [← Repair.Visibility.map_token_childTokens, List.map_map]
    rfl
  rw [htokens, body_eq h, Repair.Visibility.tokensAmong, List.filterMap_map, List.map_filterMap]
  refine List.filterMap_congr fun c _ => ?_
  cases c with
  | token t => rfl
  | node k ds => rfl

theorem name_head {n : Node} (h : n.kind.isTypeForm = true) : (head n.kind n.children).name = n.text := by
  rw [head, if_pos h]
  rfl

theorem ownName?_body : Skeleton.ownName? n.kind n.body = n.ownName? := by
  have hne {p : NodeKind → Bool} (hkind : p n.kind = true) (hp : p .modifierList = false) :
      n.kind ≠ .modifierList := by
    rintro h
    rw [h, hp] at hkind
    cases hkind
  rw [Skeleton.ownName?, ownName?]
  split
  · rename_i hkind
    rw [words_body (hne hkind rfl), typeName?_eq, List.filter_map, List.getElem?_map,
      Option.map_map]
    rfl
  · split
    · rename_i hkind
      rw [heads_body (hne hkind rfl), List.find?_map, Option.map_map, namespaceName?]
      congr 1
      refine Option.map_congr fun m hm => name_head ?_
      have hname := List.find?_some hm
      revert hname
      show Rule.SupportNamespace.isName m.kind = true → _
      cases m.kind
      all_goals exact fun h => by first | rfl | cases h
    · rfl

theorem nodes_body (h : n.kind ≠ .modifierList) :
    Skeleton.aspects scope n.names n.body = n.childNodes.map (·.aspect scope) := by
  rw [Skeleton.aspects_eq_filterMap, body_eq h, List.filterMap_map,
    filterMap_children fun _ => rfl, ← List.filterMap_eq_map]
  refine List.filterMap_congr fun m hm => ?_
  show m.tree.skeleton.aspect? scope n.names = some (m.aspect scope)
  rw [← namesAround_of_mem_childNodes hm, aspect?_skeleton]

theorem aspect_eq (h : n.kind ≠ .modifierList) :
    n.aspect scope = .of scope n.names (head n.kind n.children)
      (n.childTokens.map fun t => (t.token.kind, t.token.text))
      (n.childNodes.map (·.aspect scope)) := by
  rw [aspect, ownName?_body, ← names_eq, nodes_body h, words_body h]

@[simp] theorem kind_aspect (n : Node) : (n.aspect scope).kind = n.kind := rfl

theorem name_aspect (h : n.kind.isTypeForm = true) : (n.aspect scope).name = n.text := name_head h

end Node

/-! ## Symbols and types -/

namespace Scope

open Node

variable {scope : Scope} {n : Node}

theorem literalType?_eq (n : Node) :
    literalType? n = n.tree.firstToken?.bind fun t => wordType? t.kind t.text := by
  rw [literalType?]
  cases n.tree.firstToken? with
  | none => rfl
  | some t => rfl

theorem isMemberName_of_child {m : Node} (hm : m ∈ n.childNodes)
    (hmember : n.kind ≠ .simpleMemberAccessExpression)
    (hconditional : n.kind ≠ .conditionalAccessExpression) : isMemberName m = false := by
  rw [isMemberName, parent?_of_mem_childNodes hm, Option.any_some, beq_eq_false_iff_ne.mpr hmember,
    beq_eq_false_iff_ne.mpr hconditional]
  exact Bool.and_false _

theorem shaped_of_mem_childNodes {m : Node} (h : n.tree.Shaped) (hm : m ∈ n.childNodes) :
    m.tree.Shaped :=
  shapedOf_iff.mp h.2 _ (tree_mem_children hm)

/-- A member access has a receiver, and its second child node is the name of the member. -/
theorem childNodes_access (h : n.tree.Shaped)
    (hk : n.kind = .simpleMemberAccessExpression ∨ n.kind = .conditionalAccessExpression) :
    ∃ receiver name, n.childNodes = [receiver, name] ∧ name.kind = .identifierName ∧
      isMemberName receiver = false ∧ isMemberName name = true := by
  have haccess : (n.kind == .simpleMemberAccessExpression ||
      n.kind == .conditionalAccessExpression) = true := by
    simpa using hk
  obtain ⟨sign, e, he, hlabels⟩ : ∃ sign, IsMember sign (n.children.map Tree.label) := by
    rcases hk with hk | hk
    · exact ⟨_, form h hk⟩
    · exact ⟨_, form h hk⟩
  obtain ⟨cs, _, hchildren, hothers⟩ := exists_cons_of_labels_node hlabels
  obtain ⟨sign, _, rfl, hlast⟩ := exists_cons_of_labels_token hothers
  obtain ⟨ds, _, rfl, hnone⟩ := exists_cons_of_labels_node hlast
  obtain rfl := List.map_eq_nil_iff.mp hnone
  refine ⟨⟨e, cs, n.offset, n.frame 0 :: n.above⟩,
    ⟨.identifierName, ds, n.offset + widthOf cs + sign.fullWidth, n.frame 2 :: n.above⟩, ?_, rfl, rfl,
    haccess⟩
  rw [childNodes, hchildren]
  rfl

theorem symbol_aspect (h : n.kind ≠ .modifierList) : (n.aspect scope).symbol =
    Aspect.symbolOf scope (head n.kind n.children) (n.childNodes.map (·.aspect scope)) := by
  rw [aspect_eq h]
  rfl

theorem type_aspect (h : n.kind ≠ .modifierList) : (n.aspect scope).type =
    (Aspect.parts scope n.names (head n.kind n.children)
      (n.childTokens.map fun t => (t.token.kind, t.token.text))
      (n.childNodes.map (·.aspect scope))).type n.kind := by
  rw [aspect_eq h]
  rfl

variable (scope) in
/-- Parentheses have the symbol and the type of what stands in them. -/
theorem aspect_parenthesized (hk : n.kind = .parenthesizedExpression) {inner : Node}
    (hnodes : n.childNodes = [inner]) : (n.aspect scope).symbol = (inner.aspect scope).symbol ∧
      (n.aspect scope).type = (inner.aspect scope).type := by
  have hne : n.kind ≠ .modifierList := by
    rw [hk]
    decide
  rw [symbol_aspect hne, type_aspect hne, hk, hnodes]
  exact ⟨rfl, rfl⟩

variable (scope) in
/-- What stands in the parentheses around an expression has its symbol and its type. -/
theorem aspect_unparenthesizeUpTo (fuel : Nat) (h : n.tree.Shaped) (hn : isMemberName n = false) :
    (n.unparenthesizeUpTo fuel).tree.Shaped ∧ isMemberName (n.unparenthesizeUpTo fuel) = false ∧
      (n.unparenthesizeUpTo fuel).tree.height ≤ n.tree.height ∧
      ((n.unparenthesizeUpTo fuel).aspect scope).symbol = (n.aspect scope).symbol ∧
      ((n.unparenthesizeUpTo fuel).aspect scope).type = (n.aspect scope).type := by
  induction fuel generalizing n with
  | zero => exact ⟨h, hn, Nat.le_refl _, rfl, rfl⟩
  | succ fuel ih =>
    rw [unparenthesizeUpTo]
    split
    · rename_i hk
      obtain ⟨inner, hnodes, -⟩ := childNodes_parenthesized h hk
      have hmem : inner ∈ n.childNodes := hnodes ▸ List.mem_singleton_self inner
      have hfirst : n.childNode? 0 = some inner := by
        rw [childNode?, hnodes]
        rfl
      have hsame := aspect_parenthesized scope hk hnodes
      obtain ⟨hshaped, hmember, hheight, hsymbol, htype⟩ :=
        ih (shaped_of_mem_childNodes h hmem) (isMemberName_of_child hmem (by rw [hk]; decide)
          (by rw [hk]; decide))
      have hlt := Rule.Formatting.height_lt_of_mem_childNodes hmem
      rw [hfirst, hsame.1, hsame.2]
      exact ⟨hshaped, hmember, Nat.le_trans hheight (Nat.le_of_lt hlt), hsymbol, htype⟩
    · exact ⟨h, hn, Nat.le_refl _, rfl, rfl⟩

theorem unparenthesize_of_child (hk : n.kind = .parenthesizedExpression) {inner : Node}
    (hnodes : n.childNodes = [inner]) :
    n.unparenthesize = inner.unparenthesizeUpTo (Tree.heightOf n.children) := by
  have hheight : n.tree.height = Tree.heightOf n.children + 1 := rfl
  have hfirst : n.childNode? 0 = some inner := by
    rw [childNode?, hnodes]
    rfl
  rw [unparenthesize, hheight, unparenthesizeUpTo, if_pos hk, hfirst]

theorem symbolUpTo_eq (fuel : Nat) (h : n.tree.Shaped) (hn : isMemberName n = false)
    (hfuel : n.tree.height < fuel) : scope.symbolUpTo fuel n = (n.aspect scope).symbol := by
  induction fuel generalizing n with
  | zero => omega
  | succ fuel ih =>
    have haccess (hk : n.kind = .simpleMemberAccessExpression ∨ n.kind = .conditionalAccessExpression) :
        (n.childNode? 1).bind (scope.symbolUpTo fuel) = (n.aspect scope).symbol := by
      obtain ⟨receiver, name, hnodes, hname, -, hmember⟩ := childNodes_access h hk
      have hheight : name.tree.height < n.tree.height :=
        Rule.Formatting.height_lt_of_mem_childNodes (by rw [hnodes]; simp)
      obtain ⟨fuel, rfl⟩ : ∃ more, fuel = more + 1 := ⟨fuel - 1, by omega⟩
      have hfound : scope.symbolUpTo (fuel + 1) name = scope.table.member? name.text := by
        rw [symbolUpTo, hname]
        exact if_pos hmember
      have hne : n.kind ≠ .modifierList := by
        rintro hlist
        rw [hlist] at hk
        cases hk <;> contradiction
      rw [symbol_aspect hne, Aspect.symbolOf_access hk, hnodes, childNode?, hnodes]
      exact hfound.trans (congrArg scope.table.member? (name_aspect (by rw [hname]; rfl)).symm)
    rw [symbolUpTo]
    split
    · rename_i hk
      rw [if_neg (Bool.eq_false_iff.mp hn), symbol_aspect (by rw [hk]; decide),
        Aspect.symbolOf_identifier hk, name_head (by rw [hk]; rfl)]
    · rename_i hk
      exact haccess (.inl hk)
    · rename_i hk
      exact haccess (.inr hk)
    · rename_i hk
      obtain ⟨inner, hnodes, -⟩ := childNodes_parenthesized h hk
      have hmem : inner ∈ n.childNodes := hnodes ▸ List.mem_singleton_self inner
      have hlt := Rule.Formatting.height_lt_of_mem_childNodes hmem
      obtain ⟨hshaped, hmember, hheight, hsymbol, -⟩ :=
        aspect_unparenthesizeUpTo scope (Tree.heightOf n.children)
          (shaped_of_mem_childNodes h hmem) (isMemberName_of_child hmem (by rw [hk]; decide)
            (by rw [hk]; decide))
      rw [unparenthesize_of_child hk hnodes, ih hshaped hmember (by omega), hsymbol,
        (aspect_parenthesized scope hk hnodes).1]
    · exact (Aspect.symbolOf_other ‹_› ‹_› ‹_› ‹_›).symm

theorem symbol?_eq (h : n.tree.Shaped) (hn : isMemberName n = false) :
    scope.symbol? n = (n.aspect scope).symbol :=
  symbolUpTo_eq _ h hn (Nat.lt_succ_self _)

theorem member_aspect (h : n.tree.Shaped) (hne : n.kind ≠ .modifierList) :
    (n.aspect scope).member = n.memberAccess?.map MemberParts.nameText := by
  rw [aspect_eq hne, memberAccess?]
  show (if n.kind = .simpleMemberAccessExpression then _ else none) = _
  by_cases hk : n.kind = .simpleMemberAccessExpression
  · obtain ⟨receiver, name, hnodes, hname, -⟩ := childNodes_access h (.inl hk)
    rw [if_pos hk, if_pos hk, childNode?, childNode?, hnodes]
    exact congrArg some (name_aspect (by rw [hname]; rfl))
  · rw [if_neg hk, if_neg hk]
    rfl

theorem callType?_eq (h : n.tree.Shaped) (hk : n.kind = .invocationExpression) :
    scope.callType? n = (n.childNodes.map (·.aspect scope))[0]?.bind Aspect.callType? := by
  obtain ⟨callee, list, hnodes, -, hcallee, -⟩ := childNodes_invocation h hk
  have hmem : callee ∈ n.childNodes := by
    rw [hnodes]
    exact List.mem_cons_self
  have hmember := isMemberName_of_child hmem (by rw [hk]; decide) (by rw [hk]; decide)
  have hne : callee.kind ≠ .modifierList := by
    rintro hlist
    rw [hlist] at hcallee
    cases hcallee
  rw [callType?, childNode?, hnodes, List.map_cons]
  show _ = (callee.aspect scope).callType?
  have hshaped := shaped_of_mem_childNodes h hmem
  rw [Aspect.callType?, member_aspect hshaped hne, Option.any_map, ← symbol?_eq hshaped hmember]
  rfl

/-- The type that a node names. -/
theorem typeDeclaredAt?_eq (n : Node) : SymbolTable.typeDeclaredAt? n =
    ((n.childNodes.map (·.aspect scope)).find? (·.kind.isTypeForm)).bind Aspect.declared? := by
  rw [SymbolTable.typeDeclaredAt?, declaredType?, List.find?_map]
  show _ = ((n.childNodes.find? fun m => m.kind.isTypeForm).map _).bind _
  rw [Option.bind_map]
  refine Option.bind_congr fun m hm => ?_
  have hform := List.find?_some hm
  show TypeRef.ofNode? m = (m.aspect scope).declared?
  rw [TypeRef.ofNode?, Aspect.declared?, name_aspect hform, kind_aspect]

/-- A node that starts with a token. -/
theorem words_of_token {t : Token} {rest : List Tree} (h : n.children = .token t :: rest) :
    n.tree.firstToken? = some t ∧
      ∃ more, n.childTokens.map (fun t => (t.token.kind, t.token.text)) = (t.kind, t.text) :: more := by
  rw [Node.tree, h, childTokens, h]
  exact ⟨rfl, _, rfl⟩

theorem typeUpTo_eq (fuel : Nat) (h : n.tree.Shaped) (hn : isMemberName n = false)
    (hfuel : n.tree.height < fuel) : scope.typeUpTo fuel n = (n.aspect scope).type := by
  induction fuel generalizing n with
  | zero => omega
  | succ fuel ih =>
    rw [typeUpTo_succ]
    by_cases hlist : n.kind = .modifierList
    · have hnone : (n.aspect scope).type = none := by
        show (Aspect.parts _ _ _ _ _).type n.kind = none
        rw [hlist]
        rfl
      rw [hnone, hlist]
      rfl
    have hchild {m : Node} (hm : m ∈ n.childNodes) (hmember : n.kind ≠ .simpleMemberAccessExpression)
        (hconditional : n.kind ≠ .conditionalAccessExpression) :
        scope.typeUpTo fuel m = (m.aspect scope).type := by
      have hlt := Rule.Formatting.height_lt_of_mem_childNodes hm
      exact ih (shaped_of_mem_childNodes h hm) (isMemberName_of_child hm hmember hconditional)
        (by omega)
    rw [type_aspect hlist]
    refine Parts.type_congr ?literal ?symbol ?call ?inner ?declared rfl ?sign ?operand ?hasOperand ?arm
    case literal =>
      intro hk
      obtain ⟨k, hlabels⟩ := form h hk
      obtain ⟨t, rest, hchildren, -⟩ := exists_cons_of_labels_token hlabels
      obtain ⟨hfirst, more, hwords⟩ := words_of_token hchildren
      show literalType? n = (List.head? _).bind _
      rw [hwords, literalType?_eq, hfirst]
      rfl
    case symbol =>
      intro hk
      exact (symbol?_eq h hn).trans (symbol_aspect hlist)
    case call =>
      intro hk
      exact callType?_eq h hk
    case inner =>
      intro hk
      obtain ⟨inner, hnodes, -⟩ := childNodes_parenthesized h hk
      have hmem : inner ∈ n.childNodes := hnodes ▸ List.mem_singleton_self inner
      have hlt := Rule.Formatting.height_lt_of_mem_childNodes hmem
      obtain ⟨hshaped, hmember, hheight, -, htype⟩ :=
        aspect_unparenthesizeUpTo scope (Tree.heightOf n.children)
          (shaped_of_mem_childNodes h hmem) (isMemberName_of_child hmem (by rw [hk]; decide)
            (by rw [hk]; decide))
      show scope.typeUpTo fuel n.unparenthesize = ((n.childNodes.map _)[0]?).bind _
      rw [unparenthesize_of_child hk hnodes, ih hshaped hmember (by omega), htype, hnodes]
      rfl
    case declared => exact typeDeclaredAt?_eq n
    case sign =>
      intro hk
      obtain ⟨k, rest, hlabels⟩ := form h hk
      obtain ⟨t, rest, hchildren, -⟩ := exists_cons_of_labels_token hlabels
      obtain ⟨hfirst, more, hwords⟩ := words_of_token hchildren
      show n.tree.firstToken?.map _ = (List.head? _).map _
      rw [hwords, hfirst]
      rfl
    case operand =>
      intro hmember hconditional
      funext i
      show (n.childNode? i).bind _ = ((n.childNodes.map _)[i]?).bind _
      rw [List.getElem?_map, Option.bind_map]
      exact Option.bind_congr fun m hm => hchild (List.mem_of_getElem? hm) hmember hconditional
    case hasOperand =>
      funext i
      show n.childNodes[i]?.isSome = ((n.childNodes.map _)[i]?).isSome
      rw [List.getElem?_map, Option.isSome_map]
    case arm =>
      intro hk
      show (n.childOfKind? .switchExpressionArm).bind _ =
        ((n.childNodes.map _).find? _).bind _
      rw [List.find?_map, Option.bind_map, childOfKind?]
      refine Option.bind_congr fun arm harm => ?_
      obtain ⟨hmem, harmkind⟩ := of_childOfKind? harm
      have hlt := Rule.Formatting.height_lt_of_mem_childNodes hmem
      show _ = (arm.aspect scope).inner
      rw [aspect_eq (by rw [harmkind]; decide)]
      show _ = if arm.kind = .simpleMemberAccessExpression then _
        else if arm.kind = .switchExpressionArm then _ else none
      rw [if_neg (by rw [harmkind]; decide), if_pos harmkind, List.getLast?_map, Option.bind_map]
      refine Option.bind_congr fun m hm => ?_
      have hm := List.mem_of_getLast? hm
      have hless := Rule.Formatting.height_lt_of_mem_childNodes hm
      exact ih (shaped_of_mem_childNodes (shaped_of_mem_childNodes h hmem) hm)
        (isMemberName_of_child hm (by rw [harmkind]; decide) (by rw [harmkind]; decide)) (by omega)

/-- A scope gives an expression the type of its aspect. -/
theorem typeOf?_eq (h : n.tree.Shaped) (hn : isMemberName n = false) :
    scope.typeOf? n = (n.aspect scope).type :=
  typeUpTo_eq _ h hn (Nat.lt_succ_self _)

end Scope

end SharpLint
