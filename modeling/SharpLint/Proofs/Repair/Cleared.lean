import SharpLint.Proofs.Repair.Called
import SharpLint.Proofs.Repair.Modifiers
import SharpLint.Proofs.Rule.Due

/-!
# What replacements leave due

The call that a fix makes is a call of `ToString` itself, on a path that ends with the name of a type.
It is not due again unless a member or a variable with this name holds a floating-point value
(`Scope.shadows`).
-/

namespace SharpLint

open SharpLint.Tree Skeleton

/-- Something with the name of a type that formats holds a floating-point value. -/
def Scope.shadows (scope : Scope) (kind : FloatKind) : Bool :=
  isFloating ((scope.nameSymbol? kind.name).bind valueType?) ||
    isFloating ((scope.table.member? kind.name).bind valueType?)

variable {scope : Scope} {start : String} {σ : Situation}

/-! ## Paths -/

namespace Build

theorem text_identifierName (name : String) : (identifierName name).text = name := by
  refine String.toList_inj.mp ((text_of_outer rfl rfl).trans ?_)
  simp [identifierName, fullChars, tokens, tokensOf, Token.fullChars, Token.bare, Trivia.chars]

variable (scope) in
theorem aspect?_identifierName (names : List (Option String)) (name : String) :
    (identifierName name).skeleton.aspect? scope names = some ⟨.identifierName, name,
      scope.nameSymbol? name, (scope.nameSymbol? name).bind Scope.valueType?, none, none⟩ := by
  have htext : (Tree.node .identifierName [.token (.bare .identifier name)]).text = name :=
    text_identifierName name
  show some (Aspect.of scope names ⟨.identifierName, _, _⟩ _ _) = _
  rw [htext]
  rfl

theorem aspect?_memberAccess {names : List (Option String)} {receiver : Tree} {a : Aspect}
    (h : receiver.skeleton.aspect? scope names = some a) (name : String) :
    (memberAccess receiver name).skeleton.aspect? scope names =
      some ⟨.simpleMemberAccessExpression, "", scope.table.member? name,
        (scope.table.member? name).bind Scope.valueType?, some name, a.type⟩ := by
  have hnodes : Skeleton.aspects scope names [receiver.skeleton, .word .dot ".",
      (identifierName name).skeleton] = [a, ⟨.identifierName, name, scope.nameSymbol? name,
        (scope.nameSymbol? name).bind Scope.valueType?, none, none⟩] := by
    rw [aspects_eq_filterMap, List.filterMap_cons_some h, List.filterMap_cons_none (by rfl),
      List.filterMap_cons_some (aspect?_identifierName scope names name)]
    rfl
  show some (Aspect.of scope names ⟨.simpleMemberAccessExpression, _, _⟩ _
    (Skeleton.aspects scope names [receiver.skeleton, .word .dot ".",
      (identifierName name).skeleton])) = _
  rw [hnodes]
  rfl

theorem spotless_memberAccess {receiver : Tree} (h : receiver.skeleton.spotless = true)
    (name : String) : (memberAccess receiver name).skeleton.spotless = true := by
  show (true && (receiver.skeleton.spotless && true)) = true
  rw [h]
  rfl

variable (scope) in
theorem path_memberAccess (names : List (Option String)) (others : List String) {receiver : Tree}
    (hspotless : receiver.skeleton.spotless = true)
    (haspect : ∃ a, receiver.skeleton.aspect? scope names = some a) :
    (others.foldl memberAccess receiver).skeleton.spotless = true ∧
      ∃ a, (others.foldl memberAccess receiver).skeleton.aspect? scope names = some a := by
  induction others generalizing receiver with
  | nil => exact ⟨hspotless, haspect⟩
  | cons name others ih =>
    obtain ⟨a, ha⟩ := haspect
    exact ih (spotless_memberAccess hspotless name) ⟨_, aspect?_memberAccess ha name⟩

variable (scope) in
/-- A path to a method for a kind of number. -/
theorem exists_callee {module : String} {kind : FloatKind} {path : Tree}
    (h : dotted? (Repair.FormatCall.calleeFor module kind) = some path) :
    ∃ receiver, path = memberAccess receiver "ToString" ∧ receiver.skeleton.spotless = true ∧
      ∀ names, ∃ a, receiver.skeleton.aspect? scope names = some a ∧
        (a.type = (scope.nameSymbol? kind.name).bind Scope.valueType? ∨
          a.type = (scope.table.member? kind.name).bind Scope.valueType?) := by
  rw [dotted?, Repair.FormatCall.segments_calleeFor] at h
  cases hsegments : segments module with
  | nil =>
    rw [hsegments] at h
    obtain rfl := Option.some.inj h
    exact ⟨identifierName kind.name, rfl, rfl, fun names =>
      ⟨_, aspect?_identifierName scope names kind.name, .inl rfl⟩⟩
  | cons first others =>
    rw [hsegments] at h
    obtain rfl := Option.some.inj h
    refine ⟨memberAccess (others.foldl memberAccess (identifierName first)) kind.name, ?_, ?_,
      fun names => ?_⟩
    · exact List.foldl_append
    · exact spotless_memberAccess (path_memberAccess scope [] others rfl
        ⟨_, aspect?_identifierName scope [] first⟩).1 kind.name
    · obtain ⟨-, a, ha⟩ :=
        path_memberAccess scope names others rfl ⟨_, aspect?_identifierName scope names first⟩
      exact ⟨_, aspect?_memberAccess ha kind.name, .inr rfl⟩

/-- What can be called in the place of `ToString`: text, and not due itself. -/
structure IsFormatter (scope : Scope) (path : Tree) : Prop where
  spotless : path.skeleton.spotless = true
  aspect : ∀ names, ∃ a, path.skeleton.aspect? scope names = some a ∧ a.member = some "ToString" ∧
    Scope.isFloating a.inner = false

theorem isFormatter_callee {module : String} {kind : FloatKind} {path : Tree}
    (hscope : scope.shadows kind = false)
    (h : dotted? (Repair.FormatCall.calleeFor module kind) = some path) :
    IsFormatter scope path := by
  obtain ⟨receiver, rfl, hspotless, haspect⟩ := exists_callee scope h
  refine ⟨spotless_memberAccess hspotless "ToString", fun names => ?_⟩
  obtain ⟨a, ha, htype⟩ := haspect names
  refine ⟨_, aspect?_memberAccess ha "ToString", rfl, ?_⟩
  obtain ⟨hname, hmember⟩ := Bool.or_eq_false_iff.mp hscope
  show Scope.isFloating a.type = false
  rcases htype with htype | htype
  · rw [htype, hname]
  · rw [htype, hmember]

end Build

/-! ## Calls -/

/-- With some names around, and nothing else. -/
def Situation.plain (names : List (Option String)) : Situation := ⟨names, .plain, false⟩

theorem Situation.use_plain (names : List (Option String)) : (plain names).use ≠ .operand :=
  show Use.plain ≠ .operand from by decide

/-- The kinds of parts of calls and of holes. They hand down nothing but names. -/
def NodeKind.isCallPart : NodeKind → Bool
  | .invocationExpression | .simpleMemberAccessExpression | .argumentList | .argument
  | .interpolation => true
  | _ => false

namespace Skeleton

theorem down_of_isCallPart {head : Head} (h : head.kind.isCallPart = true) (cs : List Skeleton) :
    down scope start σ head cs = .plain σ.names := by
  obtain ⟨k, name, shown⟩ := head
  cases k
  all_goals first
    | rfl
    | cases h

theorem aspect?_invocation {head : Head} {cs : List Skeleton} {names : List (Option String)}
    (hk : head.kind = .invocationExpression) : (node head cs).aspect? scope names =
      some ⟨.invocationExpression, head.name, none,
        (aspects scope names cs)[0]?.bind Aspect.callType?, none, none⟩ := by
  obtain ⟨k, name, shown⟩ := head
  obtain rfl : k = .invocationExpression := hk
  rfl

/-- A call of `ToString` is text. -/
theorem aspect?_of_isDue {head : Head} {cs : List Skeleton}
    (h : isDue scope σ head cs .call = true) : head.kind = .invocationExpression ∧
      (node head cs).aspect? scope σ.names =
        some ⟨.invocationExpression, head.name, none, some (.ofSpecial .string), none, none⟩ := by
  obtain ⟨hkind, hfirst⟩ := Bool.and_eq_true_iff.mp h
  have hkind := beq_iff_eq.mp hkind
  refine ⟨hkind, ?_⟩
  rw [namesIn_eq (by rw [hkind]; rfl) (by rw [hkind]; rfl)] at hfirst
  obtain ⟨a, ha, hcalled⟩ := (Option.any_eq_true _ _).mp hfirst
  rw [aspect?_invocation hkind, ha, Option.bind_some, Aspect.callType?,
    (Bool.and_eq_true_iff.mp hcalled).1]
  rfl

/-- What is due in a part of a call is due in the call. -/
theorem has_of_isCallPart {head : Head} {cs : List Skeleton} {cause : Cause}
    (h : head.kind.isCallPart = true) {c : Skeleton} (hc : c ∈ cs)
    (hdue : Has scope start cause (.plain σ.names) c) : HasBelow scope start cause σ (.node head cs) :=
  ⟨c, hc, down_of_isCallPart h cs ▸ hdue⟩

end Skeleton

namespace Build

open Repair.FormatCall

variable {path : Tree} {cause : Cause}

theorem skeleton_call (path list : Tree) : (call path list).skeleton =
    .node (head .invocationExpression [path, list]) [path.skeleton, list.skeleton] := rfl

theorem aspects_call (h : IsFormatter scope path) (names : List (Option String)) (list : Tree) :
    ∃ a, (Skeleton.aspects scope names [path.skeleton, list.skeleton])[0]? = some a ∧
      a.member = some "ToString" ∧ Scope.isFloating a.inner = false := by
  obtain ⟨a, ha, hmember, hinner⟩ := h.aspect names
  refine ⟨a, ?_, hmember, hinner⟩
  rw [Skeleton.aspects, ha]
  rfl

/-- The aspect of a call of a formatter. -/
theorem aspect?_call (h : IsFormatter scope path) (names : List (Option String)) (list : Tree) :
    (call path list).skeleton.aspect? scope names =
      some ⟨.invocationExpression, "", none, some (.ofSpecial .string), none, none⟩ := by
  obtain ⟨a, ha, hmember, -⟩ := aspects_call h names list
  rw [skeleton_call, aspect?_invocation rfl, ha, Option.bind_some, Aspect.callType?, hmember]
  rfl

theorem isDue_call (h : IsFormatter scope path) (list : Tree) :
    Skeleton.isDue scope σ (head .invocationExpression [path, list])
      [path.skeleton, list.skeleton] cause = false := by
  obtain ⟨a, ha, -, hinner⟩ := aspects_call h σ.names list
  cases cause with
  | call =>
    show (true && (Skeleton.aspects scope σ.names _)[0]?.any _) = false
    rw [ha, Option.any_some, hinner, Bool.and_false]
    rfl
  | text =>
    have htype : Skeleton.typeIn scope σ (.node (head .invocationExpression [path, list])
        [path.skeleton, list.skeleton]) = some (.ofSpecial .string) := by
      rw [Skeleton.typeIn, ← skeleton_call, aspect?_call h]
      rfl
    rw [Skeleton.isDue, htype]
    show (false || (_ && _ && false)) = false
    rw [Bool.and_false]
    rfl
  | visibility =>
    show (σ.inSupport && false && _) = false
    rw [Bool.and_false]
    rfl

/-- What is due in a call of a formatter is due in its arguments. -/
theorem exists_has_of_call (h : IsFormatter scope path) {cs : List Tree}
    (hdue : Skeleton.Has scope start cause σ (call path (.node .argumentList cs)).skeleton) :
    ∃ c ∈ cs, Skeleton.Has scope start cause (.plain σ.names) c.skeleton := by
  rw [skeleton_call, Skeleton.has_node, isDue_call h, Skeleton.down_of_isCallPart rfl] at hdue
  obtain ⟨d, hd, hdue⟩ := hdue.resolve_left Bool.false_ne_true
  rw [List.mem_cons, List.mem_singleton] at hd
  rcases hd with rfl | rfl
  · exact absurd hdue (Skeleton.not_has_of_spotless h.spotless (Situation.use_plain _))
  · rw [skeleton_node (show NodeKind.argumentList ≠ .modifierList from by decide), Skeleton.has_node,
      Skeleton.down_of_isCallPart rfl] at hdue
    rcases hdue with hdue | ⟨d, hd, hdue⟩
    · rw [Skeleton.isDue_of_not_isSpot rfl (Situation.use_plain _)] at hdue
      cases hdue
    · obtain ⟨c, hc, rfl⟩ := List.mem_map.mp hd
      exact ⟨c, hc, hdue⟩

/-- What is due in an argument is due in its value. -/
theorem has_of_argument {value : Tree} (huse : σ.use ≠ .operand)
    (h : Skeleton.Has scope start cause σ (argument value).skeleton) :
    Skeleton.Has scope start cause (.plain σ.names) value.skeleton := by
  rw [argument, skeleton_node (show NodeKind.argument ≠ .modifierList from by decide), Skeleton.has_node,
    Skeleton.down_of_isCallPart rfl] at h
  rcases h with h | ⟨d, hd, h⟩
  · rw [Skeleton.isDue_of_not_isSpot rfl huse] at h
    cases h
  · obtain rfl := List.mem_singleton.mp hd
    exact h

theorem not_has_token {t : Token} : ¬ Skeleton.Has scope start cause σ (Tree.token t).skeleton := by
  rintro ⟨path, h⟩
  cases path with
  | nil => exact h
  | cons i path => exact h

theorem mem_commaSeparated {ts : List Tree} {c : Tree} (h : c ∈ commaSeparated ts) :
    c ∈ ts ∨ ∃ t, c = .token t := by
  fun_induction commaSeparated ts with
  | case1 => exact .inl h
  | case2 t => exact .inl h
  | case3 t ts hts ih =>
    rcases List.mem_cons.mp h with rfl | h
    · exact .inl List.mem_cons_self
    rcases List.mem_cons.mp h with rfl | h
    · exact .inr ⟨_, rfl⟩
    · exact (ih h).imp_left (List.mem_cons_of_mem t)

/-- The parts of a list of arguments that are no tokens are the arguments. -/
theorem mem_argumentList {values : List Tree} {c : Tree}
    (h : c ∈ [token .openParen] ++ commaSeparated (values.map argument) ++ [token .closeParen]) :
    (∃ value ∈ values, c = argument value) ∨ ∃ t, c = .token t := by
  rcases List.mem_append.mp h with h | h
  · rcases List.mem_append.mp h with h | h
    · exact .inr ⟨_, List.mem_singleton.mp h⟩
    · refine (mem_commaSeparated h).imp_left fun h => ?_
      obtain ⟨value, hvalue, rfl⟩ := List.mem_map.mp h
      exact ⟨value, hvalue, rfl⟩
  · exact .inr ⟨_, List.mem_singleton.mp h⟩

/-- What is due in a call of a formatter with these arguments is due in one of them. -/
theorem exists_has_of_arguments (h : IsFormatter scope path) {values : List Tree}
    (hdue : Skeleton.Has scope start cause σ
      (call path (argumentList (values.map argument))).skeleton) :
    ∃ value ∈ values, Skeleton.Has scope start cause (.plain σ.names) value.skeleton := by
  obtain ⟨c, hc, hdue⟩ := exists_has_of_call h hdue
  rcases mem_argumentList hc with ⟨value, hvalue, rfl⟩ | ⟨t, rfl⟩
  · exact ⟨value, hvalue, has_of_argument (σ := .plain σ.names) (Situation.use_plain σ.names) hdue⟩
  · exact absurd hdue not_has_token

theorem plainTypes_call {cs : List Tree} (hpath : path.skeleton.spotless = true)
    (hcs : ∀ c ∈ cs, c.skeleton.plainTypes = true) :
    (call path (.node .argumentList cs)).skeleton.plainTypes = true := by
  rw [skeleton_call, Skeleton.plainTypes_node (by rfl), List.forall_mem_cons, List.forall_mem_singleton,
    skeleton_node (show NodeKind.argumentList ≠ .modifierList from by decide),
    Skeleton.plainTypes_node (by rfl), List.forall_mem_map]
  exact ⟨Skeleton.plainTypes_of_spotless _ hpath, hcs⟩

theorem plainTypes_argument {value : Tree} (h : value.skeleton.plainTypes = true) :
    (argument value).skeleton.plainTypes = true := by
  rw [argument, skeleton_node (show NodeKind.argument ≠ .modifierList from by decide),
    Skeleton.plainTypes_node (by rfl)]
  exact List.forall_mem_singleton.mpr h

theorem plainTypes_arguments {values : List Tree} (hpath : path.skeleton.spotless = true)
    (h : ∀ value ∈ values, value.skeleton.plainTypes = true) :
    (call path (argumentList (values.map argument))).skeleton.plainTypes = true := by
  refine plainTypes_call hpath fun c hc => ?_
  rcases mem_argumentList hc with ⟨value, hvalue, rfl⟩ | ⟨t, rfl⟩
  · exact plainTypes_argument (h value hvalue)
  · rfl

end Build

/-! ## Replacements -/

/-- In its place the second node is seen as the first one. What is due in it is due below the first
one, or is due in the first one for another cause. -/
structure Skeleton.Clears (scope : Scope) (start : String) (cause : Cause) (σ : Situation)
    (s r : Skeleton) : Prop where
  alike : Alike scope σ s r
  plainTypes : s.plainTypes = true → r.plainTypes = true
  due : ∀ other, Has scope start other σ r →
    HasBelow scope start other σ s ∨ other ≠ cause ∧ Has scope start other σ s

namespace Repair.FormatCall

open Node

variable {path : Tree} {cause : Cause} {n : Node}

theorem skeleton_bare (n : Node) : (bare n).skeleton = n.tree.skeleton :=
  skeleton_withTrivia n.tree [] []

theorem exists_token_of_mem_commaFor {opening : Token} {rest : List Tree} {c : Tree}
    (hc : c ∈ commaFor opening rest) : ∃ t, c = .token t := by
  unfold commaFor at hc
  split at hc
  · exact ⟨_, List.mem_singleton.mp hc⟩
  · cases hc

section

variable {member receiver list : Node}

theorem CallOf.kind_eq (h : CallOf n member receiver list) :
    n.kind = .invocationExpression ∧ member.kind = .simpleMemberAccessExpression := by
  obtain ⟨name, haccess⟩ := h.access
  exact ⟨(Option.ite_none_right_eq_some.mp h.call).1, (Option.ite_none_right_eq_some.mp haccess).1⟩

theorem CallOf.skeleton_eq (h : CallOf n member receiver list) :
    ∃ others, n.tree.skeleton = .node (head n.kind n.children)
      [.node (head .simpleMemberAccessExpression member.children) (receiver.tree.skeleton :: others),
        .node (head .argumentList list.children) (list.children.map skeleton)] := by
  obtain ⟨hn, hmember⟩ := h.kind_eq
  obtain ⟨others, hothers⟩ := h.memberChildren
  have hfirst : member.tree.skeleton = .node (head .simpleMemberAccessExpression member.children)
      (receiver.tree.skeleton :: others.map skeleton) := by
    rw [Node.tree, skeleton_node (by rw [hmember]; decide), hmember, hothers]
    rfl
  have hlist : list.tree.skeleton = .node (head .argumentList list.children)
      (list.children.map skeleton) := by
    rw [Node.tree, skeleton_node (by rw [h.kind]; decide), h.kind]
  refine ⟨others.map skeleton, ?_⟩
  rw [← hfirst, ← hlist, Node.tree, skeleton_node (by rw [hn]; decide), h.children]
  rfl

/-- A call of `ToString` of a number is replaced. -/
theorem clears_call (h : CallOf n member receiver list) (hn : n.tree.Sound)
    (hpath : Build.IsFormatter scope path)
    (hdue : isDue scope σ (head n.kind n.children) n.body .call = true) :
    Clears scope start .call σ n.tree.skeleton
      ((Build.call path (prependArgument list (Build.argument (bare receiver)))).withTriviaFrom
        n.tree).skeleton := by
  obtain ⟨hkind, haspect⟩ := Skeleton.aspect?_of_isDue hdue
  obtain ⟨opening, mid, closing, count, hlist, -⟩ :=
    Node.children_argumentList (h.sound hn).2.shaped h.kind
  obtain ⟨others, hskeleton⟩ := h.skeleton_eq
  rw [skeleton_withTriviaFrom, prependArgument_eq hlist]
  refine ⟨⟨_, _, haspect, ?_, .inl rfl⟩, fun hplain => ?_, fun other hother => .inl ?_⟩
  · rw [name_head_of_not_isTypeForm (by rw [h.kind_eq.1]; rfl)]
    exact Build.aspect?_call hpath σ.names _
  · rw [hskeleton, plainTypes_node (by rw [hkind]; rfl), List.forall_mem_cons,
      List.forall_mem_singleton, plainTypes_node (by rfl), List.forall_mem_cons,
      plainTypes_node (by rfl), List.forall_mem_map] at hplain
    obtain ⟨⟨hreceiver, -⟩, hchildren⟩ := hplain
    refine Build.plainTypes_call hpath.spotless fun c hc => ?_
    rcases List.mem_cons.mp hc with rfl | hc
    · rfl
    rcases List.mem_append.mp hc with hc | hc
    · rcases List.mem_cons.mp hc with rfl | hc
      · exact Build.plainTypes_argument (skeleton_bare receiver ▸ hreceiver)
      · obtain ⟨t, rfl⟩ := exists_token_of_mem_commaFor hc
        rfl
    · exact hchildren c (hlist ▸ List.mem_cons_of_mem (.token opening) hc)
  · rw [hskeleton]
    obtain ⟨c, hc, hother⟩ := Build.exists_has_of_call hpath hother
    rcases List.mem_cons.mp hc with rfl | hc
    · exact absurd hother Build.not_has_token
    rcases List.mem_append.mp hc with hc | hc
    · rcases List.mem_cons.mp hc with rfl | hc
      · have hreceiver := Build.has_of_argument (Situation.use_plain σ.names) hother
        rw [skeleton_bare] at hreceiver
        exact has_of_isCallPart (by rw [hkind]; rfl) List.mem_cons_self
          (has_of_isCallPart (by rfl) List.mem_cons_self hreceiver).has
      · obtain ⟨t, rfl⟩ := exists_token_of_mem_commaFor hc
        exact absurd hother Build.not_has_token
    · have hmem : c ∈ list.children := hlist ▸ List.mem_cons_of_mem (.token opening) hc
      have hlistHas : Has scope start other (.plain σ.names)
          (.node (head .argumentList list.children) (list.children.map skeleton)) :=
        (has_of_isCallPart (σ := .plain σ.names) rfl (List.mem_map_of_mem hmem) hother).has
      exact has_of_isCallPart (by rw [hkind]; rfl) (List.mem_cons_of_mem _ List.mem_cons_self) hlistHas

end

/-- An expression becomes the first argument. -/
theorem exists_path_of_wrap {callee : String} {more : List Tree} {r : Tree}
    (h : wrap? callee n more = some r) : ∃ path, Build.dotted? callee = some path ∧
      r.skeleton =
        (Build.call path (Build.argumentList ((bare n :: more).map Build.argument))).skeleton := by
  obtain ⟨path, hpath, h⟩ := Option.bind_eq_some_iff.mp h
  obtain rfl := Option.some.inj h
  exact ⟨path, hpath, skeleton_withTriviaFrom _ _⟩

/-- What is due in the call around an expression is due in the expression in a plain place. -/
theorem has_of_wrapped {more : List Tree} (hpath : Build.IsFormatter scope path)
    (hmore : ∀ t ∈ more, t.skeleton.spotless = true) (h : Has scope start cause σ
      (Build.call path (Build.argumentList ((bare n :: more).map Build.argument))).skeleton) :
    Has scope start cause (.plain σ.names) n.tree.skeleton := by
  obtain ⟨value, hvalue, h⟩ := Build.exists_has_of_arguments hpath h
  rcases List.mem_cons.mp hvalue with rfl | hvalue
  · rwa [skeleton_bare] at h
  · exact absurd h (not_has_of_spotless (hmore value hvalue) (Situation.use_plain σ.names))

theorem plainTypes_wrapped {more : List Tree} (hpath : path.skeleton.spotless = true)
    (hmore : ∀ t ∈ more, t.skeleton.spotless = true) (h : n.tree.skeleton.plainTypes = true) :
    (Build.call path (Build.argumentList
      ((bare n :: more).map Build.argument))).skeleton.plainTypes = true := by
  refine Build.plainTypes_arguments hpath fun value hvalue => ?_
  rcases List.mem_cons.mp hvalue with rfl | hvalue
  · rwa [skeleton_bare]
  · exact plainTypes_of_spotless _ (hmore value hvalue)

/-- An operand of a concatenation becomes the argument of a call. -/
theorem clears_operand (hpath : Build.IsFormatter scope path) (huse : σ.use = .operand)
    (hn : n.kind ≠ .parenthesizedExpression) : Clears scope start .text σ n.tree.skeleton
      (Build.call path (Build.argumentList ([bare n].map Build.argument))).skeleton := by
  refine ⟨⟨_, _, rfl, Build.aspect?_call hpath σ.names _, .inr ⟨huse, rfl⟩⟩,
    plainTypes_wrapped hpath.spotless (List.forall_mem_nil _), fun other hother => ?_⟩
  have hplain := has_of_wrapped hpath (List.forall_mem_nil _) hother
  rcases has_node.mp hplain with hdue | ⟨d, hd, hbelow⟩
  · refine .inr ⟨?_, hplain.mono rfl rfl rfl⟩
    -- in a plain place nothing is turned into text
    rintro rfl
    simp [isDue, Situation.plain] at hdue
  · refine .inl ⟨d, hd, ?_⟩
    rwa [down_eq (σ := σ) (τ := .plain σ.names) rfl hn] at hbelow

/-! ### Holes -/

theorem exists_children_of_hole {callee : String} {h e : Node} {r : Tree} (hshaped : h.tree.Shaped)
    (he : h.hole?.bind Node.HoleParts.expression = some e) (hr : qualifiedHole? callee h = some r) :
    ∃ brace rest others more w, h.children = .token brace :: e.tree :: rest ∧
      wrap? callee e more = some w ∧ (∀ t ∈ more, t.skeleton.spotless = true) ∧
      r = .node .interpolation (.token brace :: w :: others) ∧ ∀ c ∈ others, c ∈ rest := by
  obtain ⟨brace, rest, hchildren, hindex, -, hexpression⟩ := children_hole hshaped he
  obtain ⟨parts, hparts, he⟩ := Option.bind_eq_some_iff.mp he
  obtain ⟨w, hw, rfl⟩ := exists_wrapped_of_hole hparts he hr
  have hmore : ∀ t ∈ (parts.formatText.map Build.stringLiteral).toList,
      t.skeleton.spotless = true := by
    intro t ht
    obtain ⟨text, -, rfl⟩ := Option.map_eq_some_iff.mp (Option.mem_toList.mp ht)
    rfl
  rw [hindex, hchildren]
  cases hformat : parts.format with
  | none => exact ⟨brace, rest, rest, _, w, rfl, hw, hmore, rfl, fun _ hc => hc⟩
  | some clause =>
    have hfound := (format_eq hparts).symm.trans hformat
    obtain ⟨mid, right, hrest, hclause, -⟩ := children_clause hchildren hexpression hfound
    refine ⟨brace, rest, rest.eraseIdx mid.length, _, w, rfl, hw, hmore, ?_,
      fun c hc => List.mem_of_mem_eraseIdx hc⟩
    rw [Option.map_some, Option.getD_some, hclause]
    rfl

theorem aspect?_hole {head : Head} {cs : List Skeleton} {names : List (Option String)}
    (hk : head.kind = .interpolation) : (node head cs).aspect? scope names =
      some ⟨.interpolation, head.name, none, none, none, none⟩ := by
  obtain ⟨k, name, shown⟩ := head
  obtain rfl : k = .interpolation := hk
  rfl

theorem isDue_hole {head : Head} {cs : List Skeleton} (hk : head.kind = .interpolation)
    (huse : σ.use ≠ .operand) (hfirst : ∃ a, (aspects scope σ.names cs)[0]? = some a ∧
      Scope.isFloating a.type = false) : isDue scope σ head cs cause = false := by
  obtain ⟨a, ha, hfloat⟩ := hfirst
  cases cause with
  | call => rw [isDue, hk]; rfl
  | text =>
    rw [isDue, namesIn_eq (by rw [hk]; rfl) (by rw [hk]; rfl), ha, Option.any_some, hfloat,
      Bool.and_false, beq_eq_false_iff_ne.mpr huse]
    rfl
  | visibility =>
    rw [isDue, hk]
    exact congrArg (· && _) (Bool.and_false σ.inSupport)

/-- The expression of a hole becomes the argument of a call. -/
theorem clears_hole {callee : String} {e : Node} {r : Tree}
    (hpath : ∀ path, Build.dotted? callee = some path → Build.IsFormatter scope path)
    (huse : σ.use ≠ .operand) (hn : n.tree.Shaped)
    (he : n.hole?.bind Node.HoleParts.expression = some e) (hr : qualifiedHole? callee n = some r) :
    Clears scope start .text σ n.tree.skeleton r.skeleton := by
  obtain ⟨hkind, -⟩ := childNode?_of_hole he
  obtain ⟨brace, rest, others, more, w, hchildren, hw, hmore, rfl, hothers⟩ :=
    exists_children_of_hole hn he hr
  obtain ⟨path, hdotted, hwskeleton⟩ := exists_path_of_wrap hw
  have hpath := hpath path hdotted
  have hold : n.tree.skeleton = .node (head n.kind n.children)
      (.word brace.kind brace.text :: e.tree.skeleton :: rest.map skeleton) := by
    rw [Node.tree, skeleton_node (by rw [hkind]; decide), hchildren]
    rfl
  have hnew : (Tree.node .interpolation (.token brace :: w :: others)).skeleton =
      .node (head .interpolation (.token brace :: w :: others))
        (.word brace.kind brace.text :: w.skeleton :: others.map skeleton) := by
    rw [skeleton_node (show NodeKind.interpolation ≠ .modifierList from by decide)]
    rfl
  have hfirst : ∃ a, (aspects scope σ.names
        (.word brace.kind brace.text :: w.skeleton :: others.map skeleton))[0]? = some a ∧
      Scope.isFloating a.type = false := by
    refine ⟨⟨.invocationExpression, "", none, some (.ofSpecial .string), none, none⟩, ?_, rfl⟩
    rw [aspects_eq_filterMap, List.filterMap_cons_none (by rfl), List.filterMap_cons_some
      (hwskeleton ▸ Build.aspect?_call hpath σ.names _)]
    rfl
  rw [hold, hnew]
  refine ⟨⟨_, _, aspect?_hole hkind, aspect?_hole rfl, .inl ?_⟩, fun hplain => ?_, fun other hother => ?_⟩
  · rw [name_head_of_not_isTypeForm (by rw [hkind]; rfl), name_head_of_not_isTypeForm (by rfl)]
  · rw [plainTypes_node (by rw [hkind]; rfl), List.forall_mem_cons, List.forall_mem_cons,
      List.forall_mem_map] at hplain
    rw [plainTypes_node (by rfl), List.forall_mem_cons, List.forall_mem_cons, List.forall_mem_map,
      hwskeleton]
    obtain ⟨-, hexpression, hrest⟩ := hplain
    exact ⟨rfl, plainTypes_wrapped hpath.spotless hmore hexpression,
      fun c hc => hrest c (hothers c hc)⟩
  · rw [has_node, down_of_isCallPart rfl] at hother
    rcases hother with hdue | ⟨d, hd, hother⟩
    · rw [isDue_hole rfl huse hfirst] at hdue
      cases hdue
    · left
      rcases List.mem_cons.mp hd with rfl | hd
      · exact absurd hother Build.not_has_token
      rcases List.mem_cons.mp hd with rfl | hd
      · rw [hwskeleton] at hother
        exact has_of_isCallPart (by rw [hkind]; rfl) (List.mem_cons_of_mem _ List.mem_cons_self)
          (has_of_wrapped (σ := .plain σ.names) hpath hmore hother)
      · obtain ⟨c, hc, rfl⟩ := List.mem_map.mp hd
        exact has_of_isCallPart (by rw [hkind]; rfl) (List.mem_cons_of_mem _
          (List.mem_cons_of_mem _ (List.mem_map_of_mem (hothers c hc)))) hother

end Repair.FormatCall

/-! ### Declarations -/

namespace Repair.Visibility

/-- Nothing is known of a node that is public but that it is due for that. -/
theorem clears_hidden (head : Head) (cs : List Skeleton) : Clears scope start .visibility σ
    (.node head cs) (.node { head with isPublic := false } cs) := by
  refine ⟨⟨_, _, rfl, rfl, .inl rfl⟩, fun h => h, fun other hother => ?_⟩
  rcases has_node.mp hother with hdue | hbelow
  · cases other with
    | call => exact .inr ⟨nofun, has_node.mpr (.inl hdue)⟩
    | text => exact .inr ⟨nofun, has_node.mpr (.inl hdue)⟩
    | visibility => exact absurd (Bool.and_eq_true_iff.mp hdue).2 Bool.false_ne_true
  · exact .inl hbelow

theorem skeleton_modifierList (modifiers : List Token) :
    (Build.modifierList modifiers).skeleton = .node ⟨.modifierList, "", false⟩ [] := by
  have hpublic : publicAmong (modifiers.map Tree.token) = false := by
    have hnone : (modifiers.map Tree.token).find?
        (fun c => c.label.nodeKind?.any (· == .modifierList)) = none := by
      rw [List.find?_eq_none]
      rintro c hc h
      obtain ⟨t, -, rfl⟩ := List.mem_map.mp hc
      cases h
    rw [publicAmong, hnone]
    rfl
  show Skeleton.node (head .modifierList (modifiers.map Tree.token)) [] = _
  rw [head, hpublic]
  rfl

theorem skeletons_internal (p : DeclarationParts) :
    p.internal.children.map skeleton = p.children.map skeleton := by
  have hword : (Tree.token p.internal.word).skeleton = (Tree.token p.word).skeleton := by
    unfold DeclarationParts.internal
    split
    · rfl
    · rfl
  rw [DeclarationParts.children, DeclarationParts.children, List.map_append, List.map_append,
    List.map_cons, List.map_cons, List.map_cons, List.map_cons, skeleton_modifierList,
    skeleton_modifierList, hword]
  rfl

/-- A declaration is made internal. -/
theorem clears_declaration {n : Node} {r : Tree} (hn : n.tree.Shaped)
    (hkind : n.kind.isTypeDeclaration = true) (h : withInternal? n = some r) :
    Clears scope start .visibility σ n.tree.skeleton r.skeleton := by
  obtain ⟨p, hp⟩ := exists_parts hn hkind
  rw [withInternal?, hp, p.internalChildren?_children] at h
  obtain rfl := Option.some.inj h
  have hhides := hides_internalChildren p.internalChildren?_children
  have hne : n.kind ≠ .modifierList := by
    intro hlist
    rw [hlist] at hkind
    cases hkind
  have hform : n.kind.isTypeForm = false := by
    revert hkind
    cases n.kind
    all_goals exact fun h => by first | rfl | cases h
  have hhead : head n.kind p.internal.children = { head n.kind p.children with isPublic := false } := by
    rw [head, head, hform, show publicAmong p.internal.children = false from hhides.hidden]
    rfl
  rw [Node.tree, hp, skeleton_node hne, skeleton_node hne, skeletons_internal, hhead]
  exact clears_hidden _ _

end Repair.Visibility

end SharpLint
