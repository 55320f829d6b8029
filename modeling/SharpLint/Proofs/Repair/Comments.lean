import SharpLint.Proofs.Repair.FormatCall
import SharpLint.Proofs.Repair.Visibility
import SharpLint.Proofs.Tree.Trivia

/-!
# Comments that a replacement drops

A replacement keeps all comments but those at a few places. In a call these are the places from the
end of the receiver to the parenthesis; what follows the parenthesis comes to stand behind the new
comma, so that it is dropped where there is no comma. A hole loses its format clause, and a
declaration what stands at modifiers for accessibility, but for the places that `internal` takes
over.

    x /*1*/ . /*2*/ ToString /*3*/ ( /*4*/ )        1, 2, 3 and 4 are dropped
    x.ToString( /*1*/ c )                           nothing is dropped
    public /*1*/ static /*2*/ protected /*3*/       3 is dropped

Every comment is counted, so that nothing else is dropped (`LosesOnly`).
-/

namespace SharpLint

open SharpLint.Tree

namespace Repair.FormatCall

/-! ## Expressions -/

variable {callee : String} {n : Node} {r : Tree}

theorem trivia_bare (n : Node) : (bare n).trivia = n.tree.innerTrivia := by
  rw [trivia, bare, tokens_withTrivia, innerTrivia]

theorem tokens_dotted_ne_nil {path : Tree} (h : Build.dotted? callee = some path) :
    path.tokens ≠ [] :=
  Node.tokens_ne_nil_of_hasWord
    ((Build.sound_dotted h).sound.hasWord (Build.sound_dotted h).isSolid)

/-- A call that takes over outer trivia has them in the place of those behind its arguments. -/
theorem count_call {path arguments : Tree} (h : Build.dotted? callee = some path)
    (harguments : arguments.tokens ≠ []) (n : Node) (c : Trivia) :
    ((Build.call path arguments).withTriviaFrom n.tree).trivia.count c +
        arguments.trailing.count c =
      n.tree.leading.count c + arguments.trivia.count c + n.tree.trailing.count c := by
  have hpath := tokens_dotted_ne_nil h
  have htrivia : (Build.call path arguments).trivia = arguments.trivia := by
    simp [Build.call, Build.trivia_dotted h]
  have hinner := trivia_eq (Build.call path arguments)
  rw [htrivia, Build.leading_call hpath (Build.trivia_dotted h), Build.trailing_call path harguments]
    at hinner
  rw [trivia_withTriviaFrom (Build.tokens_call_ne_nil hpath arguments), hinner]
  simp only [List.count_append, List.count_nil]
  omega

/-- An expression that is wrapped loses no comment. -/
theorem losesOnly_wrap {more : List Tree} (hmore : triviaOf more = [])
    (h : wrap? callee n more = some r) : LosesOnly [] n.tree r := by
  obtain ⟨path, hpath, h⟩ := Option.bind_eq_some_iff.mp h
  obtain rfl := Option.some.inj h
  intro c hc
  have hnew := count_call hpath
    (Build.tokens_argumentList_ne_nil ((bare n :: more).map Build.argument)) n c
  rw [Build.trailing_argumentList, Build.count_argumentList hc, Build.triviaOf_map_argument,
    triviaOf_cons, hmore, trivia_bare] at hnew
  rw [trivia_eq]
  simp only [List.count_append, List.count_nil] at hnew ⊢
  omega

/-! ## Calls -/

/-- What a call loses: the trivia from the end of the receiver to the parenthesis, and those behind
the parenthesis where no argument follows. -/
def droppedByCall (n : Node) : List Trivia :=
  match n.children with
  | [.node _ (receiver :: member), .node _ (.token opening :: rest)] =>
    receiver.trailing ++ triviaOf member ++ opening.leading ++
      (if rest.any (·.kind? == some .argument) then [] else opening.trailing)
  | _ => []

/-- What is replaced is a call of a member. -/
theorem exists_callOf_of_qualifiedCall (hn : n.tree.Sound) (h : qualifiedCall? callee n = some r) :
    ∃ member receiver list path, CallOf n member receiver list ∧
      Build.dotted? callee = some path ∧
      r = (Build.call path (prependArgument list (Build.argument (bare receiver)))).withTriviaFrom
        n.tree := by
  have hvalue := h
  obtain ⟨call, hcall, h⟩ := Option.bind_eq_some_iff.mp h
  obtain ⟨member, hmember, h⟩ := Option.bind_eq_some_iff.mp h
  obtain ⟨_, hreceiver, -⟩ := Option.bind_eq_some_iff.mp h
  obtain ⟨access, haccess, -⟩ := Option.bind_eq_some_iff.mp hreceiver
  obtain ⟨hkind, hcall⟩ := Option.ite_none_right_eq_some.mp hcall
  obtain ⟨hmemberKind, -⟩ := Option.ite_none_right_eq_some.mp haccess
  obtain rfl := Option.some.inj hcall
  obtain ⟨receiver, list, hparts⟩ := exists_callOf hn hkind hmember hmemberKind
  rw [hparts.qualifiedCall?_eq] at hvalue
  obtain ⟨path, hpath, rfl⟩ := Option.map_eq_some_iff.mp hvalue
  exact ⟨member, receiver, list, path, hparts, hpath, rfl⟩

theorem count_separator {c : Trivia} (hc : c.kind.isComment = true) (ts : List Trivia) :
    (separator ts).count c = ts.count c := by
  unfold separator
  split
  · rfl
  · rfl
  · exact Build.count_cons_space hc ts

/-- The comma takes over the trivia behind the parenthesis. -/
theorem count_commaFor {c : Trivia} (hc : c.kind.isComment = true) (opening : Token)
    (rest : List Tree) : opening.trailing.count c = (triviaOf (commaFor opening rest)).count c +
      (if rest.any (·.kind? == some .argument) then [] else opening.trailing).count c := by
  unfold commaFor
  split
  · show _ = ([] ++ separator opening.trailing ++ []).count c + 0
    rw [List.append_nil, List.nil_append, count_separator hc, Nat.add_zero]
  · exact (Nat.zero_add _).symm

/-- A call of a member, as a tree with text at both ends. -/
theorem CallOf.exists_trees {member receiver list : Node} (h : CallOf n member receiver list)
    (hn : n.tree.Sound) (hlaid : n.tree.Laid) :
    ∃ others opening rest, list.children = .token opening :: rest ∧
      n.children = [.node member.kind (receiver.tree :: others),
        .node .argumentList (.token opening :: rest)] ∧
      receiver.tree.tokens ≠ [] ∧ tokensOf rest ≠ [] := by
  obtain ⟨others, hothers⟩ := h.memberChildren
  obtain ⟨hreceiver, hsound⟩ := h.sound hn
  have hlist : list.tree ∈ n.children := by simp [h.children]
  obtain ⟨opening, arguments, closing, -, hrest, -⟩ := Node.children_argumentList hsound.shaped h.kind
  have htree : list.tree = .node .argumentList (.token opening :: (arguments ++ [.token closing])) := by
    rw [Node.tree, h.kind, hrest]
  refine ⟨others, opening, _, hrest, ?_, ?_, ?_⟩
  · rw [h.children, htree, Node.tree, hothers]
  · exact Node.tokens_ne_nil_of_hasWord (hasWord_of_isExpression hreceiver h.expression)
  · exact (htree ▸ laidOf_iff.mp hlaid.2 _ hlist : Tree.Laid _).tokensOf_ne_nil

/-- The outer trivia of a call are those of the receiver and of what ends its arguments. -/
theorem outer_of_children {k : NodeKind} {receiver : Tree} {others rest : List Tree}
    {opening : Token} (hchildren : n.children =
      [.node k (receiver :: others), .node .argumentList (.token opening :: rest)])
    (hreceiver : receiver.tokens ≠ []) (hrest : tokensOf rest ≠ []) (front : List Tree) :
    n.tree.leading = receiver.leading ∧
      n.tree.trailing = (Tree.node .argumentList (front ++ rest)).trailing := by
  rw [Node.tree, hchildren]
  constructor
  · rw [leading_node_cons _ (List.append_ne_nil_of_left_ne_nil hreceiver _),
      leading_node_cons _ hreceiver]
  · have hlast : (Tree.node .argumentList (.token opening :: rest)).tokens ≠ [] :=
      List.cons_ne_nil _ _
    refine (trailing_node_concat n.kind [_] hlast).trans ?_
    exact (trailing_node_append _ .argumentList [_] hrest).trans
      (trailing_node_append _ .argumentList front hrest).symm

/-- A call loses the comments between the receiver and the parenthesis. -/
theorem losesOnly_qualifiedCall (hn : n.tree.Sound) (hlaid : n.tree.Laid)
    (h : qualifiedCall? callee n = some r) : LosesOnly (droppedByCall n) n.tree r := by
  obtain ⟨member, receiver, list, path, hparts, hpath, rfl⟩ := exists_callOf_of_qualifiedCall hn h
  obtain ⟨others, opening, rest, hlist, hchildren, hreceiver, hrest⟩ := hparts.exists_trees hn hlaid
  have hdropped : droppedByCall n = receiver.tree.trailing ++ triviaOf others ++ opening.leading ++
      (if rest.any (·.kind? == some .argument) then [] else opening.trailing) := by
    rw [droppedByCall, hchildren]
  have hold : n.tree.trivia = receiver.tree.trivia ++ triviaOf others ++
      (opening.leading ++ opening.trailing ++ triviaOf rest) := by
    rw [Node.tree, hchildren]
    simp only [trivia_node, triviaOf_cons, trivia_token, triviaOf_nil, List.append_nil]
  let front := Build.token .openParen :: Build.argument (bare receiver) :: commaFor opening rest
  have hprepend : prependArgument list (Build.argument (bare receiver)) =
      .node .argumentList (front ++ rest) := prependArgument_eq hlist _
  have harguments : (Tree.node .argumentList (front ++ rest)).trivia =
      receiver.tree.innerTrivia ++ triviaOf (commaFor opening rest) ++ triviaOf rest := by
    have hopen : (Build.token .openParen).trivia = [] := rfl
    simp only [front, trivia_node, triviaOf_append, triviaOf_cons, hopen, List.nil_append,
      Build.argument, triviaOf_nil, List.append_nil, trivia_bare]
  obtain ⟨hleading, htrailing⟩ := outer_of_children hchildren hreceiver hrest front
  have htokens : (Tree.node .argumentList (front ++ rest)).tokens ≠ [] := List.cons_ne_nil _ _
  intro c hc
  have hnew := count_call hpath htokens n c
  have hcomma := count_commaFor hc opening rest
  rw [hprepend, hold, trivia_eq receiver.tree, hdropped]
  simp only [← htrailing, hleading, harguments, List.count_append] at hnew ⊢
  omega

/-! ## Holes -/

/-- What a hole loses: its format clause. -/
def droppedByHole (n : Node) : List Trivia :=
  ((n.hole?.bind Node.HoleParts.format).map (·.tree.trivia)).getD []

/-- A hole loses the comments of its format clause. -/
theorem losesOnly_qualifiedHole (hn : n.tree.Sound) (h : qualifiedHole? callee n = some r) :
    LosesOnly (droppedByHole n) n.tree r := by
  obtain ⟨parts, hparts, h⟩ := Option.bind_eq_some_iff.mp h
  obtain ⟨e, he, h⟩ := Option.bind_eq_some_iff.mp h
  obtain ⟨w, hw, h⟩ := Option.bind_eq_some_iff.mp h
  obtain rfl := Option.some.inj h
  obtain ⟨hkind, -⟩ := Option.ite_none_right_eq_some.mp hparts
  obtain ⟨e', parts', hmem, hexpression, hparts', he', hclause⟩ := exists_hole hn.shaped hkind
  obtain rfl := Option.some.inj (hparts.symm.trans hparts')
  obtain rfl := Option.some.inj (he.symm.trans he')
  intro c hc
  -- the expression comes back inside the call
  have hmore : triviaOf (parts.formatText.map Build.stringLiteral).toList = [] := by
    cases parts.formatText with
    | none => rfl
    | some text => rfl
  have hwrapped := losesOnly_wrap hmore hw c hc
  have hset := count_triviaOf_set (Node.children_getElem?_index hmem) w c
  have hold : n.tree.trivia = triviaOf n.children := rfl
  have hdropped : droppedByHole n = (parts.format.map (·.tree.trivia)).getD [] := by
    rw [droppedByHole, hparts]
    rfl
  rw [hold, hdropped, trivia_node]
  simp only [List.count_nil, Nat.add_zero] at hwrapped
  cases hformat : parts.format with
  | none =>
    show _ = (triviaOf (n.children.set e.index w)).count c + 0
    omega
  | some clause =>
    have hfound := getElem?_set_of_clause hmem hexpression (hclause.symm.trans hformat) w
    have herase := count_triviaOf_eraseIdx hfound c
    show _ = (triviaOf ((n.children.set e.index w).eraseIdx clause.index)).count c +
      clause.tree.trivia.count c
    omega

end Repair.FormatCall

namespace Repair.Visibility

/-! ## Modifiers -/

variable {c : Trivia}

/-- What is dropped with modifiers for accessibility: the trivia before each, but for the first
modifier of all, and those behind each, but for the first one dropped. -/
def droppedModifiers (modifiers : List Token) : List Trivia :=
  (modifiers.tail.filter isAccessibility).flatMap Token.leading ++
    (modifiers.filter isAccessibility).tail.flatMap Token.trailing

/-- What a declaration loses. -/
def droppedByInternal (n : Node) : List Trivia :=
  droppedModifiers (n.modifierTokens.map TokenAt.token)

theorem count_flatMap_filter (p : Token → Bool) (f : Token → List Trivia) (ts : List Token) :
    (ts.flatMap f).count c =
      ((ts.filter p).flatMap f).count c + ((ts.filter (!p ·)).flatMap f).count c := by
  rw [← ((List.filter_append_perm p ts).flatMap_right f).count_eq c, List.flatMap_append,
    List.count_append]

theorem count_flatMap_trivia (ts : List Token) : (ts.flatMap Token.trivia).count c =
    (ts.flatMap Token.leading).count c + (ts.flatMap Token.trailing).count c := by
  induction ts with
  | nil => rfl
  | cons t ts ih =>
    simp only [List.flatMap_cons, List.count_append, ih, Token.trivia]
    omega

/-- The trivia behind `internal` are those behind the first modifier dropped. -/
theorem count_trailing_internal (hc : c.kind.isComment = true) (ts : List Token) :
    ((ts.filter isAccessibility).flatMap Token.trailing).count c =
      (((ts.find? isAccessibility).map Token.trailing).getD [.space]).count c +
        ((ts.filter isAccessibility).tail.flatMap Token.trailing).count c := by
  rw [← List.head?_filter]
  cases ts.filter isAccessibility with
  | nil => exact (Build.count_cons_space hc []).symm
  | cons t ts => simp only [List.flatMap_cons, List.count_append, List.head?_cons, Option.map_some,
      Option.getD_some, List.tail_cons]

/-- Kept modifiers have their trivia, but for those before the first modifier of all. -/
theorem flatMap_filter_stripped (first : Token) (others : List Token) :
    let kept := ({ first with leading := [] } :: others).filter (!isAccessibility ·)
    kept.flatMap Token.leading = (others.filter (!isAccessibility ·)).flatMap Token.leading ∧
      kept.flatMap Token.trailing =
        ((first :: others).filter (!isAccessibility ·)).flatMap Token.trailing := by
  have hsame : isAccessibility { first with leading := [] } = isAccessibility first := rfl
  simp only [List.filter_cons, hsame]
  split
  · exact ⟨rfl, rfl⟩
  · exact ⟨rfl, rfl⟩

/-- The comments of the modifiers are those of the new modifiers and what is dropped. -/
theorem count_internalFirst (hc : c.kind.isComment = true) (first : Token) (others : List Token) :
    ((first :: others).flatMap Token.trivia).count c =
      ((internalFirst first.leading (first :: others)).flatMap Token.trivia).count c +
        (droppedModifiers (first :: others)).count c := by
  obtain ⟨hleading, htrailing⟩ := flatMap_filter_stripped first others
  have hl := count_flatMap_filter (c := c) isAccessibility Token.leading others
  have ht := count_flatMap_filter (c := c) isAccessibility Token.trailing (first :: others)
  have hinternal := count_trailing_internal hc (first :: others)
  rw [count_flatMap_trivia, count_flatMap_trivia]
  simp only [internalFirst, droppedModifiers, List.flatMap_cons, hleading, htrailing,
    List.count_append, List.tail_cons] at hl ht hinternal ⊢
  omega

/-- What stands behind `public` comes to stand behind `internal`. -/
example :
    let comment (text : String) : List Trivia := [⟨.multiLineComment, text⟩]
    droppedModifiers [⟨.keyword .kwPublic, "public", comment "/*0*/", comment "/*1*/"⟩,
      ⟨.keyword .kwStatic, "static", [], comment "/*2*/"⟩,
      ⟨.keyword .kwProtected, "protected", [], comment "/*3*/"⟩] = comment "/*3*/" := by
  decide

theorem tokensAmong_map_token (ts : List Token) : tokensAmong (ts.map .token) = ts := by
  rw [tokensAmong, List.filterMap_map]
  exact List.filterMap_some

/-! ## Declarations -/

/-- The tokens of the first list of modifiers. -/
def modifiersAmong (cs : List Tree) : List Token :=
  ((cs.find? fun c => c.label.nodeKind?.any (· == .modifierList)).map
    (tokensAmong ·.children)).getD []

theorem map_token_childTokens (n : Node) :
    n.childTokens.map TokenAt.token = tokensAmong n.children := by
  suffices hfrom : ∀ cs i offset, (n.childTokensFrom i offset cs).map TokenAt.token =
      tokensAmong cs from hfrom n.children 0 n.offset
  intro cs
  induction cs with
  | nil => exact fun _ _ => rfl
  | cons c cs ih =>
    intro i offset
    cases c with
    | token t => exact congrArg (t :: ·) (ih (i + 1) (offset + t.fullWidth))
    | node k ds => exact ih (i + 1) (offset + widthOf ds)

theorem map_token_modifierTokens (n : Node) :
    n.modifierTokens.map TokenAt.token = modifiersAmong n.children := by
  rw [modifiersAmong, ← Node.map_tree_find?, Node.modifierTokens, Node.childOfKind?]
  cases n.childNodes.find? fun m => m.kind == .modifierList with
  | none => rfl
  | some list => exact map_token_childTokens list

/-- Without modifiers, the trivia in front of the declaration come to stand before `internal`. -/
theorem count_takeLeading (hc : c.kind.isComment = true) {cs new : List Tree}
    {leading : List Trivia} (h : takeLeading? cs = some (leading, new)) :
    (triviaOf cs).count c =
      (Build.modifierList (internalFirst leading [])).trivia.count c + (triviaOf new).count c := by
  unfold takeLeading? at h
  split at h
  · rename_i t rest
    obtain ⟨rfl, rfl⟩ := Prod.mk.inj (Option.some.inj h)
    have hinternal : (Build.modifierList (internalFirst t.leading [])).trivia =
        t.leading ++ [.space] := List.append_nil _
    have hspace : [Trivia.space].count c = 0 := Build.count_cons_space hc []
    simp only [triviaOf_cons, hinternal, trivia_token, List.nil_append, List.count_append, hspace]
    omega
  · cases h

/-- Other modifiers keep all comments but the dropped ones. -/
theorem count_internalChildren (hc : c.kind.isComment = true) {cs new : List Tree}
    (hlaid : LaidOf cs) (h : internalChildren? cs = some new) :
    (triviaOf cs).count c =
      (triviaOf new).count c + (droppedModifiers (modifiersAmong cs)).count c := by
  induction cs using internalChildren?.induct generalizing new with
  | case1 => cases h
  | case2 list rest hamong =>
    obtain ⟨ts, rfl⟩ := hlaid.1.exists_tokens
    rw [tokensAmong_map_token] at hamong
    subst hamong
    obtain ⟨⟨leading, others⟩, htake, rfl⟩ := Option.map_eq_some_iff.mp h
    have hcount := count_takeLeading hc htake
    show _ = _ + 0
    simp only [triviaOf_cons, List.count_append, trivia_node, List.map_nil, triviaOf_nil,
      List.count_nil]
    omega
  | case3 list rest first others hamong =>
    obtain ⟨ts, rfl⟩ := hlaid.1.exists_tokens
    have hmodifiers : modifiersAmong (.node .modifierList (ts.map .token) :: rest) = first :: others :=
      hamong
    rw [tokensAmong_map_token] at hamong
    simp only [internalChildren?, tokensAmong_map_token, hamong] at h
    obtain rfl := Option.some.inj h
    have hcount := count_internalFirst hc first others
    rw [hmodifiers, hamong, Build.modifierList]
    simp only [triviaOf_cons, trivia_node, triviaOf_map_token, List.count_append]
    omega
  | case4 child rest hchild ih =>
    rw [internalChildren?.eq_3 _ _ hchild] at h
    obtain ⟨others, hothers, rfl⟩ := Option.map_eq_some_iff.mp h
    have hmodifiers : modifiersAmong (child :: rest) = modifiersAmong rest := by
      rw [modifiersAmong, List.find?_cons, any_modifierList_eq_false hchild]
      rfl
    have hcount := ih hlaid.2 hothers
    simp only [hmodifiers, triviaOf_cons, List.count_append]
    omega

/-- A declaration loses the comments at modifiers for accessibility. -/
theorem losesOnly_withInternal {n : Node} {r : Tree} (hlaid : n.tree.Laid)
    (h : withInternal? n = some r) : LosesOnly (droppedByInternal n) n.tree r := by
  obtain ⟨new, hnew, rfl⟩ := Option.map_eq_some_iff.mp h
  intro c hc
  rw [droppedByInternal, map_token_modifierTokens]
  exact count_internalChildren hc hlaid.2 hnew

end Repair.Visibility

end SharpLint
