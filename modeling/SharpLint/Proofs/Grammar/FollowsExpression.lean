import SharpLint.Proofs.Grammar.Expression
import SharpLint.Proofs.Grammar.Follows

/-!
# What names, types, expressions and patterns follow

One lemma for each production, in the order of the grammar, for any reading that composes. The nodes
of operators are not among the things that it goes through, so that it has to be known of the three
productions that make them (`Inner.Operators`).
-/

namespace SharpLint

open Production Reading

/-- The reading holds of all productions that others refer to. -/
structure Inner.Follows (R : Reading) (g : Inner) : Prop where
  type : g.type.Follows R
  expression : g.expression.Follows R
  unary : g.unary.Follows R
  coalesce : g.coalesce.Follows R
  binary : ∀ n, (g.binary n).Follows R
  pattern : g.pattern.Follows R
  negatedPattern : g.negatedPattern.Follows R
  initializer : g.initializer.Follows R
  block : g.block.Follows R
  statement : g.statement.Follows R
  member : g.member.Follows R
  members : ∀ stop, (g.members stop).Follows R

/-- The reading holds of the productions that make nodes of operators. -/
structure Inner.Operators (R : Reading) (g : Inner) : Prop where
  binary : ∀ least, (Grammar.binary g least).Follows R
  coalesce : (Grammar.coalesce g).Follows R
  expression : (Grammar.expression g).Follows R

namespace Grammar

variable {R R' : Reading} {g : Inner} (hR : R.Composes) (hg : g.Follows R)

/-! ## Names and types -/

section
include hR

theorem follows_identifierName {what : String} :
    Follows R (node .identifierName (expect .identifier what)) :=
  hR.node rfl hR.expect

theorem follows_qualifiedName : Follows R qualifiedName := by
  have hname : Follows R (node .identifierName bump) := hR.node rfl hR.bump
  exact hR.suffixed (follows_identifierName hR)
    (.ite (hR.wraps rfl) (hR.many (hR.seq ⟨hR.bump, hname⟩)))

theorem follows_predefinedType : Follows R predefinedType := hR.node rfl hR.bump

theorem follows_rank : Follows R rank :=
  hR.node rfl (hR.seq ⟨hR.bump, hR.many hR.bump, hR.expect⟩)

end

section
include hR hg

theorem follows_typeArguments : Follows R (typeArguments g) :=
  hR.node rfl (hR.seq ⟨hR.bump, hR.separated hg.type, hR.expect⟩)

theorem follows_simpleTypeName : Follows R (simpleTypeName g) := by
  intro s
  refine (hR.expect s).extend fun name s hname => .look (.ite (fun _ => ?_) fun _ => ?_)
  · have harguments : [typeArguments g].Forall (Follows R) := follows_typeArguments hR hg
    exact hR.nodeAt rfl (hR.held_seq hname harguments)
  · exact hR.nodeAt rfl (.keep hname)

theorem follows_namedType : Follows R (namedType g) := by
  have hname := follows_simpleTypeName hR hg
  exact hR.suffixed hname (.ite (hR.wraps rfl) (hR.many (hR.seq ⟨hR.bump, hname⟩)))

theorem follows_typeHead {s : List Lexeme} :
    FollowsAt R s (if atPredefinedType s then predefinedType else namedType g) s :=
  .ite (fun _ => follows_predefinedType hR s) fun _ => follows_namedType hR hg s

theorem follows_type : Follows R (type g) := by
  refine hR.suffixed (hR.suffixed (.look fun s => ?_) (.ite (hR.wraps rfl) hR.bump))
    (.ite (hR.wraps rfl) (hR.many (follows_rank hR)))
  exact .ite (fun _ => follows_predefinedType hR s) fun _ =>
    .ite (fun _ => follows_namedType hR hg s) fun _ => .fail

end

/-! ## Attributes and parameters -/

section
include hR

/-- Each lexeme inside the brackets is read as `bump` would read it. -/
theorem follows_insideBrackets (depth : Nat) : Follows R (insideBrackets depth) := by
  intro s
  induction s generalizing depth with
  | nil => exact .fail
  | cons l s ih =>
    intro ts rest hok
    by_cases hend : l.token.kind = .endOfFile
    · simp [insideBrackets, hend, Production.fail] at hok
    · obtain ⟨-, rfl, rfl⟩ | ⟨depth', us, hus, rfl⟩ := insideBrackets_cons hok
      · exact hR.nil _
      · have hstep : R (l :: s) [.token l.token] s := hR.step (by simp [bump, hend])
        exact hR.append hstep (ih depth' us rest hus)

theorem follows_attributes : Follows R attributes :=
  hR.many (hR.node rfl (hR.seq ⟨hR.bump, follows_insideBrackets hR 0, hR.bump⟩))

theorem follows_modifiers : Follows R modifiers := hR.node rfl (hR.many hR.bump)

theorem follows_listUpTo {close : TokenKind} {what : String} {item : Production}
    (hitem : Follows R item) : Follows R (listUpTo close what item) :=
  hR.seq ⟨hR.whenever (hR.separated hitem), hR.expect⟩

end

section
include hR hg

theorem follows_elements : Follows R (elements g) :=
  hR.seq ⟨hR.expect, hR.items (.look fun s => .ite (fun _ => hg.initializer s)
    fun _ => hg.expression s), hR.expect⟩

theorem follows_initializer : Follows R (initializer g) := hR.node rfl (follows_elements hR hg)

theorem follows_equalsValue : Follows R (equalsValue g) :=
  hR.node rfl (hR.seq ⟨hR.bump, .look fun s => .ite (fun _ => follows_initializer hR hg s)
    fun _ => hg.expression s⟩)

theorem follows_parameter : Follows R (parameter g) :=
  hR.node rfl (hR.seq ⟨follows_attributes hR, hR.node rfl (hR.many hR.bump), follows_type hR hg,
    hR.expect, hR.whenever (follows_equalsValue hR hg)⟩)

theorem follows_parameterList : Follows R (parameterList g) :=
  hR.node rfl (hR.seq ⟨hR.expect, follows_listUpTo hR (follows_parameter hR hg)⟩)

theorem follows_bracketedParameterList : Follows R (bracketedParameterList g) :=
  hR.node rfl (hR.seq ⟨hR.bump, hR.separated (follows_parameter hR hg), hR.expect⟩)

theorem follows_lambdaParameterList : Follows R (lambdaParameterList g) := by
  have hbare : Follows R (node .parameter bump) := hR.node rfl hR.bump
  exact hR.node rfl (hR.seq ⟨hR.bump, follows_listUpTo hR (.look fun s =>
    .ite (fun _ => hbare s) fun _ => follows_parameter hR hg s)⟩)

/-! ## Arguments -/

theorem follows_argument (close : TokenKind) : Follows R (argument g close) := by
  have hname : Follows R (node .nameColon (seq [bump, bump])) :=
    hR.node rfl (hR.seq ⟨hR.bump, hR.bump⟩)
  have hvariable : Follows R (node .declarationExpression (seq [type g, bump])) :=
    hR.node rfl (hR.seq ⟨follows_type hR hg, hR.bump⟩)
  have hreference : Follows R (seq [bump, look fun s =>
      if declaresVariable g close s then node .declarationExpression (seq [type g, bump])
      else g.expression]) :=
    hR.seq ⟨hR.bump, .look fun s => .ite (fun _ => hvariable s) fun _ => hg.expression s⟩
  exact hR.node rfl (hR.seq ⟨hR.whenever hname, .look fun s =>
    .ite (fun _ => hreference s) fun _ => hg.expression s⟩)

theorem follows_argumentList : Follows R (argumentList g) :=
  hR.node rfl (hR.seq ⟨hR.expect, follows_listUpTo hR (follows_argument hR hg _)⟩)

theorem follows_bracketedArgumentList : Follows R (bracketedArgumentList g) :=
  hR.node rfl (hR.seq ⟨hR.bump, follows_listUpTo hR (follows_argument hR hg _)⟩)

/-! ## Primary expressions -/

theorem follows_lengths : Follows R (lengths g) := by
  have hlength : Follows R (look fun s => if atKind .comma s then bump else g.expression) :=
    .look fun s => .ite (fun _ => hR.bump s) fun _ => hg.expression s
  have hgoesOn : Follows R (look fun s => if atEnd s then fail "`]`" else empty) :=
    .look fun s => .ite (fun _ => .fail) fun _ => hR.empty s
  exact hR.node rfl (hR.seq ⟨hR.bump, hR.many (hR.seq ⟨hlength, hgoesOn⟩), hR.bump⟩)

theorem follows_creation : Follows R (creation g) := by
  have helements : Follows R (elements g) := follows_elements hR hg
  have harguments : Follows R (argumentList g) := follows_argumentList hR hg
  have hrank : Follows R (node .arrayRankSpecifier (seq [bump, expect .closeBracket "`]`"])) :=
    hR.node rfl (hR.seq ⟨hR.bump, hR.expect⟩)
  intro s
  refine (hR.bump s).extend fun new rest hnew => .look ?_
  refine .ite (fun _ => hR.nodeAt rfl (hR.held_seq hnew ⟨harguments, hR.whenever helements⟩))
    fun _ => .ite (fun _ => hR.nodeAt rfl (hR.keep_seq hnew (hR.seqAt (helements rest) trivial)))
    fun _ => .ite (fun _ => hR.nodeAt rfl (hR.held_seq hnew ⟨hrank, helements⟩)) fun _ => ?_
  -- the type is read behind `new`, and what is made of both starts at `new`
  refine (follows_typeHead hR hg).extend fun element s helement => .look ?_
  refine .ite (fun _ => ?_) fun _ => ?_
  · have hranks : [many (atKind .openBracket) (lengths g)].Forall (Follows R) :=
      hR.many (follows_lengths hR hg)
    have harray : FollowsAt R rest (node .arrayType
        (seq [keep element, many (atKind .openBracket) (lengths g)])) s :=
      hR.nodeAt rfl (hR.held_seq helement hranks)
    exact hR.nodeAt rfl (hR.keep_seq hnew (hR.seqAt harray (hR.whenever helements)))
  · exact hR.nodeAt rfl (hR.keep_seq hnew
      (hR.held_seq helement ⟨hR.whenever harguments, hR.whenever helements⟩))

theorem follows_interpolation : Follows R (interpolation g) := by
  have halignment : Follows R (node .interpolationAlignmentClause (seq [bump, g.expression])) :=
    hR.node rfl (hR.seq ⟨hR.bump, hg.expression⟩)
  have hformat : Follows R (node .interpolationFormatClause
      (seq [bump, eat .interpolatedFormatText])) :=
    hR.node rfl (hR.seq ⟨hR.bump, hR.eat⟩)
  exact hR.node rfl (hR.seq ⟨hR.bump, hg.expression, hR.whenever halignment, hR.whenever hformat,
    hR.expect⟩)

theorem follows_interpolatedString : Follows R (interpolatedString g) := by
  have htext : Follows R (node .interpolatedStringText bump) := hR.node rfl hR.bump
  exact hR.node rfl (hR.seq ⟨hR.bump, hR.many (.look fun s => .ite (fun _ => htext s)
    fun _ => follows_interpolation hR hg s), hR.expect⟩)

theorem follows_typeOperand {kind : NodeKind} (hk : kind.isBinary = false) :
    Follows R (typeOperand g kind) :=
  hR.node hk (hR.seq ⟨hR.bump, hR.expect, follows_type hR hg, hR.expect⟩)

theorem follows_primary : Follows R (primary g) := by
  have hone {kind : NodeKind} (hk : kind.isBinary = false) : Follows R (node kind bump) :=
    hR.node hk hR.bump
  refine .look fun s => ?_
  split
  case h_4 => exact follows_interpolatedString hR hg s
  case h_6 => exact hR.nodeAt rfl (hR.seqAt (hR.bump s) ⟨hg.expression, hR.expect⟩)
  case h_11 => exact follows_creation hR hg s
  case h_13 => exact .ite (fun _ => follows_typeOperand hR hg rfl s) fun _ => hone rfl s
  case h_14 => exact follows_typeOperand hR hg rfl s
  case h_15 => exact hR.nodeAt rfl (hR.seqAt (hR.bump s) hg.expression)
  case h_16 => exact .ite (fun _ => follows_predefinedType hR s) fun _ => .fail
  case h_17 => exact .fail
  all_goals exact hone rfl s

theorem follows_postfixSuffix : FollowsSuffix R (postfixSuffix g) := by
  intro s kind tail h
  have hmember : Follows R (seq [bump, node .identifierName (expect .identifier "member name")]) :=
    hR.seq ⟨hR.bump, follows_identifierName hR⟩
  unfold postfixSuffix at h
  dsimp only at h
  split at h
  case h_8 => cases h
  all_goals obtain ⟨rfl, rfl⟩ := Prod.mk.inj (Option.some.inj h)
  case h_1 => exact ⟨hR.wraps rfl, hmember⟩
  case h_2 => exact ⟨hR.wraps rfl, hmember⟩
  case h_3 => exact ⟨hR.wraps rfl, follows_argumentList hR hg⟩
  case h_4 => exact ⟨hR.wraps rfl, follows_bracketedArgumentList hR hg⟩
  all_goals exact ⟨hR.wraps rfl, hR.bump⟩

/-! ## Operators -/

theorem follows_unary : Follows R (unary g) := by
  have hoperand : Follows R (chain (primary g) (postfixSuffix g)) :=
    hR.chain (follows_primary hR hg) (follows_postfixSuffix hR hg)
  have hcast : Follows R (node .castExpression
      (seq [bump, type g, expect .closeParen "`)`", g.unary])) :=
    hR.node rfl (hR.seq ⟨hR.bump, follows_type hR hg, hR.expect, hg.unary⟩)
  refine .look fun s => ?_
  split
  case h_7 => exact .ite (fun _ => hcast s) fun _ => hoperand s
  case h_8 => exact hoperand s
  all_goals exact hR.nodeAt rfl (hR.seqAt (hR.bump s) hg.unary)

theorem follows_whenClause : Follows R (whenClause g) :=
  hR.whenever (hR.node rfl (hR.seq ⟨hR.bump, hg.expression⟩))

theorem follows_switchSuffix : FollowsSuffix R (switchSuffix g) := by
  have harm : Follows R (node .switchExpressionArm
      (seq [g.pattern, whenClause g, expect .arrow "`=>`", g.expression])) :=
    hR.node rfl (hR.seq ⟨hg.pattern, follows_whenClause hR hg, hR.expect, hg.expression⟩)
  exact .ite (hR.wraps rfl) (hR.seq ⟨hR.bump, hR.bump, hR.items harm, hR.expect⟩)

/-- A unary operand, with or without `switch` behind it. -/
theorem follows_operand : Follows R (chain (unary g) (switchSuffix g)) :=
  hR.chain (follows_unary hR hg) (follows_switchSuffix hR hg)

theorem follows_conditional (hcoalesce : Follows R (coalesce g)) : Follows R (conditional g) :=
  hR.suffixed hcoalesce
    (.ite (hR.wraps rfl) (hR.seq ⟨hR.bump, hg.expression, hR.expect, hg.expression⟩))

/-! ## Lambdas and assignments -/

omit hR in
theorem follows_lambdaBody : Follows R (lambdaBody g) :=
  .look fun s => .ite (fun _ => hg.block s) fun _ => hg.expression s

/-- An expression is a lambda, or what a conditional makes, or an assignment to that. -/
theorem follows_expression (hleft : Follows R' (conditional g))
    (hnone : ∀ start held s, R' start held s → R start held s)
    (hassign : ∀ start held s kind, R' start held s → kind.isAssignment = true →
      FollowsAt R start (node kind (seq [keep held, seq [bump, g.expression]])) s) :
    Follows R (expression g) := by
  have hparameter : Follows R (node .parameter bump) := hR.node rfl hR.bump
  intro s
  refine .look (.ite (fun _ => ?_) fun _ => .ite (fun _ => ?_) fun _ => ?_)
  · exact hR.nodeAt rfl (hR.seqAt (hparameter s) ⟨hR.bump, follows_lambdaBody hg⟩)
  · exact hR.nodeAt rfl (hR.seqAt (follows_lambdaParameterList hR hg s)
      ⟨hR.expect, follows_lambdaBody hg⟩)
  · refine (hleft s).extend fun held rest hheld => .suffixed (hnone s held rest hheld) ?_
    intro kind tail hsuffix
    obtain ⟨-, hkind, rfl⟩ := assignmentSuffix_eq_some hsuffix
    exact hassign s held rest kind hheld hkind

/-! ## Patterns -/

section
variable (hops : g.Operators R)
include hops

theorem follows_negatedPattern : Follows R (negatedPattern g) := by
  have hvariable : Follows R (seq [type g, bump]) := hR.seq ⟨follows_type hR hg, hR.bump⟩
  intro s
  refine .look (.ite (fun _ => ?_) fun _ => .ite (fun _ => ?_) fun _ => .ite (fun _ => ?_)
    fun _ => .ite (fun _ => ?_) fun _ => ?_)
  · exact hR.nodeAt rfl (hR.seqAt (hR.bump s) hg.negatedPattern)
  · exact hR.nodeAt rfl (hR.seqAt (hR.bump s) (hops.binary shift))
  · exact hR.nodeAt rfl (hvariable s)
  · exact hR.nodeAt rfl (follows_type hR hg s)
  · exact hR.nodeAt rfl (hops.binary shift s)

theorem follows_pattern : Follows R (pattern g) := by
  have hnegated := follows_negatedPattern hR hg hops
  have hconjunction : Follows R (chain (negatedPattern g) fun s =>
      if atWord "and" s then some (.andPattern, seq [bump, negatedPattern g]) else none) :=
    hR.chain hnegated (.ite (hR.wraps rfl) (hR.seq ⟨hR.bump, hnegated⟩))
  exact hR.chain hconjunction (.ite (hR.wraps rfl) (hR.seq ⟨hR.bump, hconjunction⟩))

end

end

end Grammar

end SharpLint
