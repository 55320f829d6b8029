import SharpLint.Proofs.Grammar.InStep
import SharpLint.Proofs.Grammar.Operators

/-!
# Names, types, expressions and patterns in step

One lemma for each production, in the order of the grammar, for two ways `g` and `g'` of what it refers to
that are in step where fewer than `n` lexemes are left. A production that starts with a lexeme of a certain
kind is in step for up to `n` lexemes (`InStep (n + 1) 1`); one that reads its first lexeme unseen is, where
that lexeme can be read (`InStepReady n`). A look ahead for a type asks the same production as reading the
type, so it answers alike.
-/

namespace SharpLint

open Production

/-- What productions refer to is in step where fewer than `n` lexemes are left. -/
structure Inner.InStep (n : Nat) (g g' : Inner) : Prop where
  type : Production.InStep n 0 g.type g'.type
  expression : Production.InStep n 0 g.expression g'.expression
  unary : Production.InStep n 0 g.unary g'.unary
  coalesce : Production.InStep n 0 g.coalesce g'.coalesce
  binary : ∀ least, Production.InStep n 0 (g.binary least) (g'.binary least)
  pattern : Production.InStep n 0 g.pattern g'.pattern
  negatedPattern : Production.InStep n 0 g.negatedPattern g'.negatedPattern
  initializer : Production.InStep n 0 g.initializer g'.initializer
  block : Production.InStep n 0 g.block g'.block
  statement : Production.InStep n 0 g.statement g'.statement
  member : Production.InStep n 0 g.member g'.member
  members : ∀ stop, Production.InStep n 0 (g.members stop) (g'.members stop)

namespace Grammar

variable {n : Nat} {s : List Lexeme}

/-! ## Names and types -/

theorem ready_of_atDotName (s : List Lexeme) (h : atDotName s = true) : Ready s :=
  ready_of_atKind (Bool.and_eq_true_iff.mp h).1 nofun

theorem ready_of_atRank (s : List Lexeme) (h : atRank s = true) : Ready s :=
  ready_of_atKind (Bool.and_eq_true_iff.mp h).1 nofun

theorem ready_at (kind : TokenKind) (hk : kind ≠ .endOfFile) (s : List Lexeme)
    (h : atKind kind s = true) : Ready s :=
  ready_of_atKind h hk

theorem inStep_qualifiedName : InStep (n + 1) 1 qualifiedName qualifiedName :=
  .suffixed (.node (.expect nofun))
    (.many ready_of_atDotName (.seq .bump ⟨.node .bump, trivial⟩))

theorem inStepReady_predefinedType : InStepReady n predefinedType predefinedType := .node .bump

theorem inStepReady_rank : InStepReady n rank rank :=
  .node (.seq .bump ⟨.manyPart .bump, .sign nofun, trivial⟩)

section

variable {g g' : Inner} (hg : g.InStep n g')
include hg

theorem inStepReady_typeArguments : InStepReady n (typeArguments g) (typeArguments g') :=
  .node (.seq .bump ⟨.separatedPart hg.type, .sign nofun, trivial⟩)

theorem inStep_simpleTypeName : InStep (n + 1) 1 (simpleTypeName g) (simpleTypeName g') := by
  have harguments : InStepReady n (seq [typeArguments g]) (seq [typeArguments g']) :=
    .seq (inStepReady_typeArguments hg) trivial
  refine .extend (.expect nofun) fun name s hs => .look (.ite (fun hlt => ?_) fun _ => .node (.keep name))
  exact .node (.keep_seq (harguments.part hs (ready_of_atKind hlt nofun)))

theorem inStep_namedType : InStep (n + 1) 1 (namedType g) (namedType g') :=
  .suffixed (inStep_simpleTypeName hg)
    (.many ready_of_atDotName (.seq .bump ⟨(inStep_simpleTypeName hg).part, trivial⟩))

theorem inStep_typeHead (hs : s.length < n + 1) :
    InStepAt 1 (if atPredefinedType s then predefinedType else namedType g)
      (if atPredefinedType s then predefinedType else namedType g') s :=
  .ite (fun h => inStepReady_predefinedType s hs (ready_of_keyword? h)) fun _ => inStep_namedType hg s hs

theorem inStep_type : InStep (n + 1) 1 (type g) (type g') := by
  refine .suffixed (.suffixed (.look fun s hs => ?_) (.ite (ready_at .question nofun) .bump))
    (.many ready_of_atRank inStepReady_rank)
  refine .ite (fun h => inStepReady_predefinedType s hs (ready_of_keyword? h)) fun _ => ?_
  exact .ite (fun _ => inStep_namedType hg s hs) fun _ => .fail

theorem afterType?_inStep (hs : s.length < n + 1) : afterType? g s = afterType? g' s := by
  rw [afterType?, afterType?, (inStep_type hg s hs).same]

end

/-! ## Attributes and parameters -/

theorem inStep_insideBrackets (depth : Nat) :
    InStep n 0 (insideBrackets depth) (insideBrackets depth) := by
  refine fun s hs => ⟨rfl, fun ts rest hok => ?_⟩
  clear hs
  induction s generalizing depth ts with
  | nil => cases hok
  | cons l s ih =>
    obtain ⟨-, rfl, rfl⟩ | ⟨depth', us, hinside, rfl⟩ := insideBrackets_cons hok
    · exact .refl _
    · have hl : l.token.kind ≠ .endOfFile := by
        intro hend
        unfold insideBrackets at hok
        simp only [hend] at hok
        cases hok
      obtain ⟨read, rfl, -, hread⟩ := ih depth' us hinside
      exact ⟨l :: read, rfl, Nat.zero_le _, List.forall_mem_cons.mpr ⟨hl, hread⟩⟩

theorem inStep_attributes : InStep n 0 attributes attributes :=
  .many (ready_at .openBracket nofun)
    (.node (.seq .bump ⟨inStep_insideBrackets 0, .bump, trivial⟩))

theorem inStep_modifiers : InStep n 0 modifiers modifiers := .node (.manyPart .bump)

theorem inStep_parameterModifiers : InStep n 0 (node .modifierList (many atParameterModifier bump))
    (node .modifierList (many atParameterModifier bump)) :=
  .node (.manyPart .bump)

theorem inStep_listUpTo {close : TokenKind} {what : String} {item item' : Production}
    (hclose : close ≠ .endOfFile) (h : InStep n 0 item item') :
    InStep n 0 (listUpTo close what item) (listUpTo close what item') :=
  .all ⟨.wheneverPart (.separatedPart h), .sign hclose, trivial⟩

section

variable {g g' : Inner} (hg : g.InStep n g')
include hg

theorem inStep_elements : InStep (n + 1) 1 (elements g) (elements g') :=
  .seq (.expect nofun) ⟨.items (.look fun s hs =>
    .ite (fun _ => hg.initializer s hs) fun _ => hg.expression s hs), .sign nofun, trivial⟩

theorem inStep_initializer : InStep (n + 1) 1 (initializer g) (initializer g') :=
  .node (inStep_elements hg)

theorem inStepReady_equalsValue : InStepReady n (equalsValue g) (equalsValue g') :=
  .node (.seq .bump ⟨.look fun s hs =>
    .ite (fun _ => (inStep_initializer hg).part s hs) fun _ => hg.expression s hs, trivial⟩)

theorem inStep_defaultValue :
    InStep n 0 (whenever (atKind .eq) (equalsValue g)) (whenever (atKind .eq) (equalsValue g')) :=
  .whenever (ready_at .eq nofun) (inStepReady_equalsValue hg)

theorem inStep_parameter : InStep (n + 1) 1 (parameter g) (parameter g') :=
  .node (.after inStep_attributes (.after inStep_parameterModifiers
    (.seq (inStep_type hg) ⟨.sign nofun, inStep_defaultValue hg, trivial⟩)))

theorem inStep_parameterList : InStep (n + 1) 1 (parameterList g) (parameterList g') :=
  .node (.seq (.expect nofun) ⟨inStep_listUpTo nofun (inStep_parameter hg).part, trivial⟩)

theorem inStep_bracketedParameterList :
    InStep n 0 (bracketedParameterList g) (bracketedParameterList g') :=
  .node (.all ⟨.bump, .separatedPart (inStep_parameter hg).part, .sign nofun, trivial⟩)

theorem inStepReady_lambdaParameterList :
    InStepReady n (lambdaParameterList g) (lambdaParameterList g') :=
  .node (.seq .bump ⟨inStep_listUpTo nofun (.look fun s hs => .ite (fun _ => .node (InStep.bump s hs))
    fun _ => (inStep_parameter hg).part s hs), trivial⟩)

/-! ## Arguments -/

theorem declaresVariable_inStep (close : TokenKind) (hs : s.length < n + 1) :
    declaresVariable g close s = declaresVariable g' close s := by
  rw [declaresVariable, declaresVariable, afterType?_inStep hg hs]

theorem inStep_argument (close : TokenKind) : InStep n 0 (argument g close) (argument g' close) := by
  refine .node (.all ⟨.wheneverPart (.node (.all ⟨.bump, .bump, trivial⟩)), .look fun s hs => .ite
    (fun _ => .all hs ⟨.bump, .look fun s hs => ?_, trivial⟩) fun _ => hg.expression s hs, trivial⟩)
  rw [declaresVariable_inStep hg close (Nat.lt_succ_of_lt hs)]
  exact .ite (fun _ => .node (.all hs ⟨(inStep_type hg).part, .bump, trivial⟩)) fun _ =>
    hg.expression s hs

theorem inStep_argumentList : InStep (n + 1) 1 (argumentList g) (argumentList g') :=
  .node (.seq (.expect nofun) ⟨inStep_listUpTo nofun (inStep_argument hg _), trivial⟩)

theorem inStepReady_bracketedArgumentList :
    InStepReady n (bracketedArgumentList g) (bracketedArgumentList g') :=
  .node (.seq .bump ⟨inStep_listUpTo nofun (inStep_argument hg _), trivial⟩)

/-! ## Primary expressions -/

theorem inStepReady_lengths : InStepReady n (lengths g) (lengths g') :=
  .node (.seq .bump ⟨.manyPart (.all
    ⟨.look fun s hs => .ite (fun _ => InStep.bump s hs) fun _ => hg.expression s hs,
      .look fun s hs => .ite (fun _ => .fail) fun _ => InStep.empty s hs, trivial⟩), .bump, trivial⟩)

theorem inStep_creationElements : InStep n 0 (whenever (atKind .openBrace) (elements g))
    (whenever (atKind .openBrace) (elements g')) :=
  .wheneverPart (inStep_elements hg).part

theorem inStepReady_creation : InStepReady n (creation g) (creation g') := by
  refine .extend .bump fun new s hs => .look (.ite (fun _ => ?_) fun _ => .ite (fun _ => ?_) fun _ =>
    .ite (fun _ => ?_) fun _ => ?_)
  · exact .node (.keep_seq (.all hs ⟨(inStep_argumentList hg).part, inStep_creationElements hg, trivial⟩))
  · exact .node (.keep_seq (.all hs ⟨(inStep_elements hg).part, trivial⟩))
  · exact .node (.keep_seq (.all hs ⟨.node (.all ⟨.bump, .sign nofun, trivial⟩),
      (inStep_elements hg).part, trivial⟩))
  have helement := (inStep_typeHead hg (Nat.lt_succ_of_lt hs)).mono (Nat.zero_le 1)
  refine helement.extend (k := 0) fun element rest hread => ?_
  have hrest : rest.length < n := Nat.lt_of_le_of_lt hread.length_add_le hs
  refine .look (.ite (fun _ => ?_) fun _ => ?_)
  · have hlengths : InStep n 0 (many (atKind .openBracket) (lengths g))
        (many (atKind .openBracket) (lengths g')) :=
      .many (ready_at .openBracket nofun) (inStepReady_lengths hg)
    exact .node (.keep_seq (.all hrest
      ⟨.node fun _ hs => .keep_seq (.all hs ⟨hlengths, trivial⟩), inStep_creationElements hg, trivial⟩))
  · exact .node (.keep_seq (.keep_seq (.all hrest
      ⟨.wheneverPart (inStep_argumentList hg).part, inStep_creationElements hg, trivial⟩)))

theorem inStepReady_interpolation : InStepReady n (interpolation g) (interpolation g') :=
  .node (.seq .bump ⟨hg.expression, .wheneverPart (.node (.all ⟨.bump, hg.expression, trivial⟩)),
    .wheneverPart (.node (.all ⟨.bump, .eat, trivial⟩)), .sign nofun, trivial⟩)

theorem inStepReady_interpolatedString :
    InStepReady n (interpolatedString g) (interpolatedString g') := by
  refine .node (.seq .bump ⟨.many (fun s hs => ?_) (.look fun s hs hready => ?_), .sign nofun, trivial⟩)
  · rcases Bool.or_eq_true_iff.mp hs with hs | hs
    · exact ready_of_atKind hs nofun
    · exact ready_of_atKind hs nofun
  · exact .ite (fun _ => .node (.bump hready)) fun _ => inStepReady_interpolation hg s hs hready

theorem inStepReady_typeOperand (kind : NodeKind) :
    InStepReady n (typeOperand g kind) (typeOperand g' kind) :=
  .node (.seq .bump ⟨.sign nofun, (inStep_type hg).part, .sign nofun, trivial⟩)

theorem inStep_primary : InStep (n + 1) 1 (primary g) (primary g') := by
  refine .look fun s hs => ?_
  have hbump (kind : NodeKind) (hready : Ready s) : InStepAt 1 (node kind bump) (node kind bump) s :=
    .node (.bump hready)
  split
  case h_17 => exact .fail
  all_goals
    rename_i hkind
    have hready : Ready s := ready_of_kind hkind nofun
  case h_4 => exact inStepReady_interpolatedString hg s hs hready
  case h_6 => exact .node (.seq hs (.bump hready) ⟨hg.expression, .sign nofun, trivial⟩)
  case h_11 => exact inStepReady_creation hg s hs hready
  case h_13 =>
    exact .ite (fun _ => inStepReady_typeOperand hg _ s hs hready) fun _ => hbump _ hready
  case h_14 => exact inStepReady_typeOperand hg _ s hs hready
  case h_15 => exact .node (.seq hs (.bump hready) ⟨hg.expression, trivial⟩)
  case h_16 => exact .ite (fun _ => inStepReady_predefinedType s hs hready) fun _ => .fail
  all_goals exact hbump _ hready

theorem postfixSuffix_inStep : SuffixInStep n (postfixSuffix g) (postfixSuffix g') := by
  intro s hs
  have hs' : s.length < n + 1 := Nat.lt_succ_of_lt hs
  have hmember : InStepReady n
      (seq [bump, node .identifierName (expect .identifier "member name")])
      (seq [bump, node .identifierName (expect .identifier "member name")]) :=
    .seq .bump ⟨.node (.sign nofun), trivial⟩
  unfold postfixSuffix
  dsimp only
  split
  case h_8 => exact .inl ⟨rfl, rfl⟩
  all_goals
    rename_i hkind
    have hready : Ready s := ready_of_kind hkind nofun
    refine .inr ⟨_, _, _, rfl, rfl, ?_⟩
  case h_1 => exact hmember s hs' hready
  case h_2 => exact hmember s hs' hready
  case h_3 => exact inStep_argumentList hg s hs'
  case h_4 => exact inStepReady_bracketedArgumentList hg s hs' hready
  all_goals exact .bump hready

/-! ## Operators -/

theorem looksLikeCast_inStep (hs : s.length < n + 1) : looksLikeCast g s = looksLikeCast g' s := by
  have hinside : (s.drop 1).length < n + 1 := by
    rw [List.length_drop]
    omega
  simp only [looksLikeCast, afterType?_inStep hg hinside]

theorem inStep_operand : InStep (n + 1) 1 (chain (primary g) (postfixSuffix g))
    (chain (primary g') (postfixSuffix g')) :=
  .chain (inStep_primary hg) (postfixSuffix_inStep hg)

theorem inStep_unary : InStep (n + 1) 1 (unary g) (unary g') := by
  refine .look fun s hs => ?_
  rw [looksLikeCast_inStep hg hs]
  split
  case h_8 => exact inStep_operand hg s hs
  all_goals
    rename_i hkind
    have hready : Ready s := ready_of_kind hkind nofun
  case h_7 =>
    refine .ite (fun _ => .node ?_) fun _ => inStep_operand hg s hs
    exact .seq hs (.bump hready) ⟨(inStep_type hg).part, .sign nofun, hg.unary, trivial⟩
  all_goals exact .node (.seq hs (.bump hready) ⟨hg.unary, trivial⟩)

theorem inStep_whenClause : InStep n 0 (whenClause g) (whenClause g') :=
  .wheneverPart (.node (.all ⟨.bump, hg.expression, trivial⟩))

theorem switchSuffix_inStep : SuffixInStep n (switchSuffix g) (switchSuffix g') :=
  .ite (fun _ hs => ready_of_atKeyword (Bool.and_eq_true_iff.mp hs).1)
    (.seq .bump ⟨.bump, .items (.node (.all ⟨hg.pattern, inStep_whenClause hg, .sign nofun,
      hg.expression, trivial⟩)), .sign nofun, trivial⟩)

theorem Continues.inStep {p : Nat} {kind : NodeKind} {tail : Production}
    (h : Continues g s p kind tail) (hs : s.length < n + 1) :
    ∃ tail', Continues g' s p kind tail' ∧ InStepAt 1 tail tail' s := by
  have hready : Ready s := h.ne_end
  cases h with
  | typeTest has =>
    exact ⟨_, .typeTest has, .seq hs (.bump hready) ⟨(inStep_type hg).part, trivial⟩⟩
  | patternTest has his =>
    exact ⟨_, .patternTest has his, .seq hs (.bump hready) ⟨hg.pattern, trivial⟩⟩
  | rightShift htest hshift =>
    have hsign : InStepAt 1 (seq [bump, bump]) (seq [bump, bump]) s :=
      .seq hs (.bump hready) ⟨.bump, trivial⟩
    exact ⟨_, .rightShift htest hshift, .seq hs hsign ⟨hg.binary _, trivial⟩⟩
  | operator htest hshift hop hp =>
    exact ⟨_, .operator htest hshift hop hp, .seq hs (.bump hready) ⟨hg.binary _, trivial⟩⟩

theorem binarySuffix_inStep (least : Nat) :
    SuffixInStep n (binarySuffix g least) (binarySuffix g' least) := by
  intro s hs
  cases hsuffix : binarySuffix g least s with
  | none =>
    refine .inl ⟨rfl, ?_⟩
    cases hsuffix' : binarySuffix g' least s with
    | none => rfl
    | some found =>
      -- an operator that is found with the other operands is found with these
      obtain ⟨p, hnext, hleast⟩ := binarySuffix_eq_some.mp hsuffix'
      obtain ⟨tail, hnext⟩ := hnext.exists_tail g
      rw [binarySuffix_eq_some.mpr ⟨p, hnext, hleast⟩] at hsuffix
      cases hsuffix
  | some found =>
    obtain ⟨kind, tail⟩ := found
    obtain ⟨p, hnext, hleast⟩ := binarySuffix_eq_some.mp hsuffix
    obtain ⟨tail', hnext', htail⟩ := Continues.inStep hg hnext (Nat.lt_succ_of_lt hs)
    exact .inr ⟨kind, tail, tail', rfl, binarySuffix_eq_some.mpr ⟨p, hnext', hleast⟩, htail⟩

theorem inStep_binary (least : Nat) : InStep (n + 1) 1 (binary g least) (binary g' least) :=
  .chain (.chain (inStep_unary hg) (switchSuffix_inStep hg)) (binarySuffix_inStep hg least)

theorem inStep_coalesce : InStep (n + 1) 1 (coalesce g) (coalesce g') :=
  .suffixed (inStep_binary hg 1)
    (.ite (ready_at .questionQuestion nofun) (.seq .bump ⟨hg.coalesce, trivial⟩))

theorem inStep_conditional : InStep (n + 1) 1 (conditional g) (conditional g') :=
  .suffixed (inStep_coalesce hg)
    (.ite (ready_at .question nofun)
      (.seq .bump ⟨hg.expression, .sign nofun, hg.expression, trivial⟩))

/-! ## Lambdas and assignments -/

theorem inStep_lambdaBody : InStep n 0 (lambdaBody g) (lambdaBody g') :=
  .look fun s hs => .ite (fun _ => hg.block s hs) fun _ => hg.expression s hs

theorem assignmentSuffix_inStep :
    SuffixInStep n
      (fun s => match NodeKind.ofOperator? (kindAhead 0 s) with
        | some kind => if kind.isAssignment then some (kind, seq [bump, g.expression]) else none
        | none => none)
      (fun s => match NodeKind.ofOperator? (kindAhead 0 s) with
        | some kind => if kind.isAssignment then some (kind, seq [bump, g'.expression]) else none
        | none => none) := by
  intro s hs
  dsimp only
  split
  · rename_i kind hkind
    have hready : Ready s := kindAhead_of_operator hkind
    split
    · exact .inr ⟨_, _, _, rfl, rfl,
        .seq (Nat.lt_succ_of_lt hs) (.bump hready) ⟨hg.expression, trivial⟩⟩
    · exact .inl ⟨rfl, rfl⟩
  · exact .inl ⟨rfl, rfl⟩

theorem inStep_expression : InStep (n + 1) 1 (expression g) (expression g') := by
  have hassigned : InStep (n + 1) 1 _ _ :=
    .suffixed (inStep_conditional hg) (assignmentSuffix_inStep hg)
  refine .look fun s hs => .ite (fun hname => .node ?_) fun _ => .ite (fun hopen => .node ?_) fun _ =>
    hassigned s hs
  · have hready : Ready s := ready_of_atKind (Bool.and_eq_true_iff.mp hname).1 nofun
    exact .seq hs (.node (.bump hready)) ⟨.bump, inStep_lambdaBody hg, trivial⟩
  · have hready : Ready s := ready_of_atKind (Bool.and_eq_true_iff.mp hopen).1 nofun
    exact .seq hs (inStepReady_lambdaParameterList hg s hs hready)
      ⟨.sign nofun, inStep_lambdaBody hg, trivial⟩

/-! ## Patterns -/

theorem looksLikeDesignation_inStep (hs : s.length < n + 1) :
    looksLikeDesignation g s = looksLikeDesignation g' s := by
  rw [looksLikeDesignation, looksLikeDesignation, afterType?_inStep hg hs]

theorem looksLikeCompositeType_inStep (hs : s.length < n + 1) :
    looksLikeCompositeType g s = looksLikeCompositeType g' s := by
  rw [looksLikeCompositeType, looksLikeCompositeType, (inStep_type hg s hs).same]

theorem inStep_negatedPattern : InStep (n + 1) 1 (negatedPattern g) (negatedPattern g') := by
  refine .look fun s hs => ?_
  rw [looksLikeDesignation_inStep hg hs, looksLikeCompositeType_inStep hg hs]
  refine .ite (fun hword => .node ?_) fun _ => .ite (fun hsign => .node ?_) fun _ =>
    .ite (fun _ => .node ?_) fun _ => .ite (fun _ => .node ?_) fun _ => .node ?_
  · exact .seq hs (.bump (ready_of_atWord hword)) ⟨hg.negatedPattern, trivial⟩
  · have hready : Ready s := by
      simp only [Bool.or_eq_true] at hsign
      obtain ((h | h) | h) | h := hsign
      all_goals exact ready_of_atKind h nofun
    exact .seq hs (.bump hready) ⟨(inStep_binary hg shift).part, trivial⟩
  · exact .seq hs (inStep_type hg s hs) ⟨.bump, trivial⟩
  · exact inStep_type hg s hs
  · exact inStep_binary hg shift s hs

theorem inStep_conjunction :
    InStep (n + 1) 1
      (chain (negatedPattern g) fun s =>
        if atWord "and" s then some (.andPattern, seq [bump, negatedPattern g]) else none)
      (chain (negatedPattern g') fun s =>
        if atWord "and" s then some (.andPattern, seq [bump, negatedPattern g']) else none) :=
  .chain (inStep_negatedPattern hg)
    (.ite (fun _ => ready_of_atWord) (.seq .bump ⟨(inStep_negatedPattern hg).part, trivial⟩))

theorem inStep_pattern : InStep (n + 1) 1 (pattern g) (pattern g') :=
  .chain (inStep_conjunction hg)
    (.ite (fun _ => ready_of_atWord) (.seq .bump ⟨(inStep_conjunction hg).part, trivial⟩))

end

end Grammar

end SharpLint
