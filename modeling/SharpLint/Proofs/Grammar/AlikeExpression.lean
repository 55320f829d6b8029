import SharpLint.Proofs.Grammar.Alike
import SharpLint.Proofs.Grammar.Expression

/-!
# Names, types, expressions and patterns do not see trivia

One lemma for each production, in the order of the grammar. A look ahead asks for kinds and texts, or
tries a type, which is itself blind; so it gives the same answer at places that are alike. Patterns
are blind where the name that comes next has the same brackets (`SameName`), because a pattern that
starts with a type is told from a constant by the brackets in the printed type
(`looksLikeCompositeType_alike`).
-/

namespace SharpLint

open Production

/-- The name that comes next has the same brackets in both lists. -/
def SameName (s t : List Lexeme) : Prop := Lexeme.nameBrackets s = Lexeme.nameBrackets t

/-- The production is blind where a name comes next that has the same brackets. -/
def BlindToName (p : Production) : Prop :=
  ∀ s t, Alike s t → SameName s t → AgreeAt p p s t

/-- All productions that others refer to are exact and blind. -/
structure Inner.Blind (g : Inner) : Prop where
  exact : g.Exact
  type : g.type.Blind
  expression : g.expression.Blind
  unary : g.unary.Blind
  coalesce : g.coalesce.Blind
  binary : ∀ n, (g.binary n).Blind
  pattern : BlindToName g.pattern
  negatedPattern : BlindToName g.negatedPattern
  initializer : g.initializer.Blind
  block : g.block.Blind
  statement : g.statement.Blind
  member : g.member.Blind
  members : ∀ stop, (g.members stop).Blind

namespace Grammar

/-! ## Names and types -/

section
variable {s t : List Lexeme} (h : Alike s t)
include h

theorem atPredefinedType_alike : atPredefinedType t = atPredefinedType s := by
  rw [atPredefinedType, atPredefinedType, h.kindAhead]

theorem atDotName_alike : atDotName t = atDotName s := by
  rw [atDotName, atDotName, h.atKind, h.kindAhead]

theorem atRank_alike : atRank t = atRank s := by
  rw [atRank, atRank, h.atKind, h.kindAhead]

end

theorem blind_qualifiedName : Blind qualifiedName := by
  have hpart : Blind (seq [bump, node .identifierName bump]) := .seq ⟨.bump, .node .bump⟩
  have hparts : Blind (many atDotName (seq [bump, node .identifierName bump])) :=
    .many (fun _ _ h => atDotName_alike h) fun s t h _ => hpart s t h
  exact .suffixed (.node .expect) (.ite (fun _ _ h => atDotName_alike h) fun s t h _ => hparts s t h)

section
variable {g : Inner} (hg : g.Blind) {s t : List Lexeme}
include hg

theorem blind_typeArguments : Blind (typeArguments g) :=
  .node (.seq ⟨.bump, .separated hg.type, .expect⟩)

theorem blind_simpleTypeName : Blind (simpleTypeName g) := by
  refine .extend .expect fun name name' s t hname h => .look ?_
  rw [h.atKind]
  refine .ite (fun _ => ?_) fun _ => .node (.keep hname h)
  have harguments : Blind (seq [typeArguments g]) := .seq (blind_typeArguments hg)
  exact .node (.keep_seq hname (harguments s t h) h)

theorem blind_namedType : Blind (namedType g) := by
  have hpart : Blind (seq [bump, simpleTypeName g]) := .seq ⟨.bump, blind_simpleTypeName hg⟩
  have hparts : Blind (many atDotName (seq [bump, simpleTypeName g])) :=
    .many (fun _ _ h => atDotName_alike h) fun s t h _ => hpart s t h
  exact .suffixed (blind_simpleTypeName hg)
    (.ite (fun _ _ h => atDotName_alike h) fun s t h _ => hparts s t h)

omit hg in
theorem blind_predefinedType : Blind predefinedType := .node .bump

omit hg in
theorem blind_rank : Blind rank :=
  .node (.seq ⟨.bump, .many (fun _ _ h => h.atKind .comma) fun s t h _ => Blind.bump s t h, .expect⟩)

theorem blind_type : Blind (type g) := by
  refine .suffixed (.suffixed (.look (fun s t h => ?_) fun s t h => ?_) (.ite (fun _ _ h => h.atKind _)
    fun s t h _ => Blind.bump s t h)) (.ite (fun _ _ h => atRank_alike h) fun s t h _ => ?_)
  · rw [atPredefinedType_alike h, h.atKind]
  · refine .ite (fun _ => blind_predefinedType s t h) fun _ => ?_
    exact .ite (fun _ => blind_namedType hg s t h) fun _ => Blind.fail s t h
  · exact Blind.many (fun _ _ h => atRank_alike h) (fun s t h _ => blind_rank s t h) s t h

/-- A look ahead for a type finds one at both places or at none, and what comes after it is
alike. -/
theorem afterType?_alike (h : Alike s t) :
    (afterType? g s = none ∧ afterType? g t = none) ∨
      ∃ s' t', afterType? g s = some s' ∧ afterType? g t = some t' ∧ Alike s' t' := by
  obtain ⟨hs, ht, -, hrest⟩ | ⟨hs, ht⟩ := blind_type hg s t h
  · exact .inr ⟨_, _, by simp only [afterType?, hs], by simp only [afterType?, ht], hrest⟩
  · exact .inl ⟨by simp only [afterType?, hs], by simp only [afterType?, ht]⟩

/-- A test of what comes after a type. -/
theorem testAfterType_alike {test : List Lexeme → Bool}
    (htest : ∀ s t, Alike s t → test t = test s) (h : Alike s t) :
    (match afterType? g t with
      | none => false
      | some rest => test rest) =
    match afterType? g s with
      | none => false
      | some rest => test rest := by
  obtain ⟨hs, ht⟩ | ⟨s', t', hs, ht, hrest⟩ := afterType?_alike hg h
  · rw [hs, ht]
  · rw [hs, ht]
    exact htest s' t' hrest

end

/-! ## Attributes and parameters -/

theorem blind_insideBrackets (depth : Nat) : Blind (insideBrackets depth) := by
  intro s
  induction s generalizing depth with
  | nil =>
    intro t h
    obtain rfl : t = [] := List.length_eq_zero_iff.mp h.length_eq.symm
    exact .error rfl rfl
  | cons a s ih =>
    intro t h
    obtain ⟨hnil, -⟩ | ⟨a', s', b, t, hcons, rfl, hab, htail⟩ := h.eq_nil_or_cons
    · cases hnil
    obtain ⟨rfl, rfl⟩ := List.cons.inj hcons
    have hkind := Token.kind_eq_of_withoutTrivia hab
    have hs := insideBrackets_eq depth a s
    have ht := insideBrackets_eq depth b t
    rw [← hkind] at ht
    split at hs
    · rename_i hend
      rw [if_pos hend] at ht
      exact .error hs ht
    rename_i hend
    rw [if_neg hend] at ht
    split at hs
    · rename_i hclose
      rw [if_pos hclose] at ht
      exact .ok hs ht rfl h
    · rename_i hclose
      rw [if_neg hclose] at ht
      have htrees : Tree.withoutTriviaOf [.token a.token] = Tree.withoutTriviaOf [.token b.token] := by
        simp only [Tree.withoutTriviaOf, Tree.withoutTrivia, hab]
      have hothers : AgreeAt (seq [insideBrackets (depthBehind depth a.token.kind)])
          (seq [insideBrackets (depthBehind depth a.token.kind)]) s t :=
        (ih (depthBehind depth a.token.kind) t htail).seq trivial
      obtain ⟨hs', ht', htrees', hrest⟩ | ⟨hs', ht'⟩ := AgreeAt.keep_seq htrees hothers htail
      · exact .ok (hs.trans hs') (ht.trans ht') htrees' hrest
      · exact .error (hs.trans hs') (ht.trans ht')

theorem blind_attributes : Blind attributes := by
  have hlist : Blind (node .attributeList (seq [bump, insideBrackets 0, bump])) :=
    .node (.seq ⟨.bump, blind_insideBrackets 0, .bump⟩)
  exact .many (fun _ _ h => h.atKind _) fun s t h _ => hlist s t h

theorem blind_modifiers : Blind modifiers :=
  .node (.many (fun _ _ h => by rw [h.kindAhead]) fun s t h _ => Blind.bump s t h)

section
variable {s t : List Lexeme} (h : Alike s t)
include h

theorem atParameterModifier_alike : atParameterModifier t = atParameterModifier s := by
  rw [atParameterModifier, atParameterModifier, h.kindAhead]

theorem atByReference_alike : atByReference t = atByReference s := by
  simp only [atByReference, h.atKeyword]

end

theorem blind_parameterModifiers : Blind (node .modifierList (many atParameterModifier bump)) :=
  .node (.many (fun _ _ h => atParameterModifier_alike h) fun s t h _ => Blind.bump s t h)

section
variable {g : Inner} (hg : g.Blind) {s t : List Lexeme}
include hg

theorem blind_elements : Blind (elements g) := by
  refine .seq ⟨.expect, .items (fun _ _ h => by rw [h.atKind]) ?_, .expect⟩
  exact .look (fun _ _ h => by rw [h.atKind]) fun s t h =>
    .ite (fun _ => hg.initializer s t h) fun _ => hg.expression s t h

theorem blind_initializer : Blind (initializer g) := .node (blind_elements hg)

theorem blind_equalsValue : Blind (equalsValue g) := by
  refine .node (.seq ⟨.bump, ?_⟩)
  exact .look (fun _ _ h => by rw [h.atKind]) fun s t h =>
    .ite (fun _ => blind_initializer hg s t h) fun _ => hg.expression s t h

theorem blind_defaultValue : Blind (whenever (atKind .eq) (equalsValue g)) :=
  .whenever (fun _ _ h => h.atKind _) (blind_equalsValue hg)

theorem blind_parameter : Blind (parameter g) :=
  .node (.seq ⟨blind_attributes, blind_parameterModifiers, blind_type hg, .expect,
    blind_defaultValue hg⟩)

omit hg in
theorem blind_listUpTo {close : TokenKind} {what : String} {item : Production}
    (hitem : Blind item) : Blind (listUpTo close what item) :=
  .seq ⟨.whenever (fun _ _ h => by rw [h.atKind]) (.separated hitem), .expect⟩

theorem blind_parameterList : Blind (parameterList g) :=
  .node (.seq ⟨.expect, blind_listUpTo (blind_parameter hg)⟩)

theorem blind_bracketedParameterList : Blind (bracketedParameterList g) :=
  .node (.seq ⟨.bump, .separated (blind_parameter hg), .expect⟩)

theorem blind_lambdaParameterList : Blind (lambdaParameterList g) := by
  refine .node (.seq ⟨.bump, blind_listUpTo ?_⟩)
  have hbare : Blind (node .parameter bump) := .node .bump
  exact .look (fun _ _ h => by simp only [h.atKind, h.kindAhead]) fun s t h =>
    .ite (fun _ => hbare s t h) fun _ => blind_parameter hg s t h

/-! ## Arguments -/

theorem declaresVariable_alike {close : TokenKind} (h : Alike s t) :
    declaresVariable g close t = declaresVariable g close s :=
  testAfterType_alike hg (fun _ _ h => by simp only [h.atKind, h.kindAhead]) h

theorem blind_argument (close : TokenKind) : Blind (argument g close) := by
  have hname : Blind (node .nameColon (seq [bump, bump])) := .node (.seq ⟨.bump, .bump⟩)
  have hdeclares : Blind (node .declarationExpression (seq [type g, bump])) :=
    .node (.seq ⟨blind_type hg, .bump⟩)
  have hvalue : Blind (look fun s => if declaresVariable g close s then
      node .declarationExpression (seq [type g, bump]) else g.expression) :=
    .look (fun _ _ h => by rw [declaresVariable_alike hg h]) fun s t h =>
      .ite (fun _ => hdeclares s t h) fun _ => hg.expression s t h
  have hbyReference : Blind (seq [bump, look fun s => if declaresVariable g close s then
      node .declarationExpression (seq [type g, bump]) else g.expression]) :=
    .seq ⟨.bump, hvalue⟩
  refine .node (.seq ⟨.whenever (fun _ _ h => by simp only [h.atKind, h.kindAhead]) hname, ?_⟩)
  exact .look (fun _ _ h => by rw [atByReference_alike h]) fun s t h =>
    .ite (fun _ => hbyReference s t h) fun _ => hg.expression s t h

theorem blind_argumentList : Blind (argumentList g) :=
  .node (.seq ⟨.expect, blind_listUpTo (blind_argument hg _)⟩)

theorem blind_bracketedArgumentList : Blind (bracketedArgumentList g) :=
  .node (.seq ⟨.bump, blind_listUpTo (blind_argument hg _)⟩)

/-! ## Primary expressions -/

theorem blind_lengths : Blind (lengths g) := by
  have hlength : Blind (look fun s => if atKind .comma s then bump else g.expression) :=
    .look (fun _ _ h => by rw [h.atKind]) fun s t h =>
      .ite (fun _ => Blind.bump s t h) fun _ => hg.expression s t h
  have hgoesOn : Blind (look fun s => if atEnd s then fail "`]`" else empty) :=
    .look (fun _ _ h => by rw [h.atEnd]) fun s t h =>
      .ite (fun _ => Blind.fail s t h) fun _ => Blind.empty s t h
  have hpart : Blind (seq [look fun s => if atKind .comma s then bump else g.expression,
      look fun s => if atEnd s then fail "`]`" else empty]) := .seq ⟨hlength, hgoesOn⟩
  exact .node (.seq ⟨.bump, .many (fun _ _ h => by rw [h.atKind]) fun s t h _ => hpart s t h,
    .bump⟩)

theorem blind_creationElements : Blind (whenever (atKind .openBrace) (elements g)) :=
  .whenever (fun _ _ h => h.atKind _) (blind_elements hg)

theorem blind_creation : Blind (creation g) := by
  refine .extend .bump fun new new' s t hnew h => .look ?_
  simp only [h.atKind, atPredefinedType_alike h]
  refine .ite (fun _ => ?_) fun _ => .ite (fun _ => ?_) fun _ => .ite (fun _ => ?_) fun _ => ?_
  · have htail : Blind (seq [argumentList g, whenever (atKind .openBrace) (elements g)]) :=
      .seq ⟨blind_argumentList hg, blind_creationElements hg⟩
    exact .node (.keep_seq hnew (htail s t h) h)
  · have htail : Blind (seq [elements g]) := .seq (blind_elements hg)
    exact .node (.keep_seq hnew (htail s t h) h)
  · have htail : Blind (seq [node .arrayRankSpecifier (seq [bump, expect .closeBracket "`]`"]),
        elements g]) :=
      .seq ⟨.node (.seq ⟨.bump, .expect⟩), blind_elements hg⟩
    exact .node (.keep_seq hnew (htail s t h) h)
  have helement : AgreeAt (if atPredefinedType s then predefinedType else namedType g)
      (if atPredefinedType s then predefinedType else namedType g) s t :=
    .ite (fun _ => blind_predefinedType s t h) fun _ => blind_namedType hg s t h
  refine helement.extend fun element element' s t helement h => .look ?_
  simp only [h.atKind]
  refine .ite (fun _ => ?_) fun _ => ?_
  · have hlengths : Blind (seq [many (atKind .openBracket) (lengths g)]) :=
      .seq (Blind.many (fun _ _ h => h.atKind _) fun s t h _ => blind_lengths hg s t h)
    have harray : AgreeAt
        (node .arrayType (seq [keep element, many (atKind .openBracket) (lengths g)]))
        (node .arrayType (seq [keep element', many (atKind .openBracket) (lengths g)])) s t :=
      .node (.keep_seq helement (hlengths s t h) h)
    exact .node (.keep_seq hnew (harray.seq (blind_creationElements hg)) h)
  · have htail : Blind (seq [whenever (atKind .openParen) (argumentList g),
        whenever (atKind .openBrace) (elements g)]) :=
      .seq ⟨.whenever (fun _ _ h => h.atKind _) (blind_argumentList hg), blind_creationElements hg⟩
    exact .node (.keep_seq hnew (.keep_seq helement (htail s t h) h) h)

theorem blind_interpolation : Blind (interpolation g) := by
  have halignment : Blind (node .interpolationAlignmentClause (seq [bump, g.expression])) :=
    .node (.seq ⟨.bump, hg.expression⟩)
  have hformat : Blind (node .interpolationFormatClause
      (seq [bump, eat .interpolatedFormatText])) := .node (.seq ⟨.bump, .eat⟩)
  exact .node (.seq ⟨.bump, hg.expression, .whenever (fun _ _ h => h.atKind _) halignment,
    .whenever (fun _ _ h => h.atKind _) hformat, .expect⟩)

theorem blind_interpolatedString : Blind (interpolatedString g) := by
  have htext : Blind (node .interpolatedStringText bump) := .node .bump
  have hpart : Blind (look fun s => if atKind .interpolatedStringText s then
      node .interpolatedStringText bump else interpolation g) :=
    .look (fun _ _ h => by rw [h.atKind]) fun s t h =>
      .ite (fun _ => htext s t h) fun _ => blind_interpolation hg s t h
  exact .node (.seq ⟨.bump, .many (fun _ _ h => by simp only [h.atKind])
    fun s t h _ => hpart s t h, .expect⟩)

theorem blind_typeOperand (kind : NodeKind) : Blind (typeOperand g kind) :=
  .node (.seq ⟨.bump, .expect, blind_type hg, .expect⟩)

theorem blind_primary : Blind (primary g) := by
  refine .look (fun s t h => by simp only [h.kindAhead]) fun s t h => ?_
  have hbump (kind : NodeKind) : Blind (node kind bump) := .node .bump
  have hparenthesized : Blind (node .parenthesizedExpression
      (seq [bump, g.expression, expect .closeParen "`)`"])) :=
    .node (.seq ⟨.bump, hg.expression, .expect⟩)
  have hthrow : Blind (node .throwExpression (seq [bump, g.expression])) :=
    .node (.seq ⟨.bump, hg.expression⟩)
  split
  case h_4 => exact blind_interpolatedString hg s t h
  case h_6 => exact hparenthesized s t h
  case h_11 => exact blind_creation hg s t h
  case h_13 => exact .ite (fun _ => blind_typeOperand hg _ s t h) fun _ => hbump _ s t h
  case h_14 => exact blind_typeOperand hg _ s t h
  case h_15 => exact hthrow s t h
  case h_16 => exact .ite (fun _ => blind_predefinedType s t h) fun _ => Blind.fail s t h
  case h_17 => exact Blind.fail s t h
  all_goals exact hbump _ s t h

theorem alikeSuffix_afterOperand : AlikeSuffix (postfixSuffix g) := by
  intro s t h
  refine ⟨by simp only [postfixSuffix, h.kindAhead], fun kind tail hsuffix => ?_⟩
  have hmember : Blind (seq [bump, node .identifierName (expect .identifier "member name")]) :=
    .seq ⟨.bump, .node .expect⟩
  unfold postfixSuffix at hsuffix
  dsimp only at hsuffix
  split at hsuffix
  case h_8 => cases hsuffix
  all_goals obtain ⟨rfl, rfl⟩ := Prod.mk.inj (Option.some.inj hsuffix)
  case h_1 => exact hmember s t h
  case h_2 => exact hmember s t h
  case h_3 => exact blind_argumentList hg s t h
  case h_4 => exact blind_bracketedArgumentList hg s t h
  all_goals exact Blind.bump s t h

/-! ## Operators -/

theorem looksLikeCast_alike (h : Alike s t) : looksLikeCast g t = looksLikeCast g s := by
  simp only [looksLikeCast, atPredefinedType_alike (h.drop 1)]
  exact testAfterType_alike hg (fun _ _ h => by simp only [h.atKind, h.kindAhead]) (h.drop 1)

theorem blind_operand : Blind (chain (primary g) (postfixSuffix g)) :=
  .chain (blind_primary hg) (alikeSuffix_afterOperand hg)

theorem blind_unary : Blind (unary g) := by
  refine .look (fun s t h => by simp only [h.kindAhead, looksLikeCast_alike hg h]) fun s t h => ?_
  have hcast : Blind (node .castExpression (seq [bump, type g, expect .closeParen "`)`", g.unary])) :=
    .node (.seq ⟨.bump, blind_type hg, .expect, hg.unary⟩)
  have hprefix : Blind (node .prefixUnaryExpression (seq [bump, g.unary])) :=
    .node (.seq ⟨.bump, hg.unary⟩)
  split
  case h_7 => exact .ite (fun _ => hcast s t h) fun _ => blind_operand hg s t h
  case h_8 => exact blind_operand hg s t h
  all_goals exact hprefix s t h

theorem blind_whenClause : Blind (whenClause g) :=
  .whenever (fun _ _ h => h.atWord _) (.node (.seq ⟨.bump, hg.expression⟩))

omit hg in
/-- Behind a word that a pattern follows, the name that comes next is the same. -/
theorem sameName_behind (h : Alike s t) (hs : (atKeyword .kwIs s || atKeyword .kwCase s ||
    atWord "not" s || atWord "and" s || atWord "or" s) = true) :
    SameName (s.drop 1) (t.drop 1) := by
  have hbrackets := h.nameBrackets
  rw [Lexeme.behindPatternStart, if_pos hs, Lexeme.behindPatternStart, if_pos] at hbrackets
  · exact hbrackets
  · simpa only [h.atKeyword, h.atWord] using hs

omit hg in
theorem sameName_behind_switch (h : Alike s t) (hs : Lexeme.startsArms s = true) :
    SameName (s.drop 2) (t.drop 2) := by
  have hkind : kindAhead 0 s = .keyword .kwSwitch := by
    simpa [atKeyword, atKind] using (Bool.and_eq_true_iff.mp hs).1
  have hother : (atKeyword .kwIs s || atKeyword .kwCase s || atWord "not" s || atWord "and" s ||
      atWord "or" s) = false := by
    simp [atKeyword, atWord, atKind, hkind]
  have hbrackets := h.nameBrackets
  simp only [Lexeme.behindPatternStart, h.atKeyword, h.atWord, h.startsArms, hother, hs] at hbrackets
  exact hbrackets

/-- Where an arm of a `switch` expression can start. -/
def ArmAhead (s t : List Lexeme) : Prop := SameName s t ∧ SameCommas s t

omit hg in
/-- Behind the comma of an arm, the name that comes next is the same. -/
theorem armAhead_behind {p : Production} (hp : p.Exact) {ts us : List Tree} {s' t' : List Lexeme}
    (h : Alike s t) (harm : ArmAhead s t) (hs : p s = .ok (ts, s')) (ht : p t = .ok (us, t'))
    (hrest : Alike s' t') (hcomma : atKind .comma s' = true) : ArmAhead (s'.drop 1) (t'.drop 1) := by
  obtain ⟨read, rfl, -⟩ := hp _ _ _ hs h.ends
  obtain ⟨read', rfl, -⟩ := hp _ _ _ ht h.symm.ends
  have hlength : read.length = read'.length := by
    have hall := h.length_eq
    rw [List.length_append, List.length_append, hrest.length_eq] at hall
    omega
  have hcommas : SameCommas s' t' := by
    have hdrop := harm.2.drop read.length
    rwa [List.drop_left, hlength, List.drop_left] at hdrop
  refine ⟨?_, hcommas.drop 1⟩
  have hhead := congrArg List.head? hcommas
  obtain ⟨rfl, rfl⟩ | ⟨a, s', b, t', rfl, rfl, -, -⟩ := hrest.eq_nil_or_cons
  · rfl
  · have hcomma' := (hrest.atKind .comma).trans hcomma
    simpa [SameName, List.tails, Lexeme.commaBrackets, hcomma, hcomma'] using hhead

theorem alikeSuffix_switch : AlikeSuffix (switchSuffix g) := by
  refine .ite (fun s t h => h.startsArms) fun s t h hs => ?_
  obtain ⟨hswitch, hopen⟩ := Bool.and_eq_true_iff.mp hs
  have hexact : Exact (node .switchExpressionArm
      (seq [g.pattern, whenClause g, expect .arrow "`=>`", g.expression])) :=
    .node (.seq ⟨hg.exact.pattern, exact_whenClause hg.exact, .expect nofun, hg.exact.expression⟩)
  have harm (s t : List Lexeme) (h : Alike s t) (hname : ArmAhead s t) :
      AgreeAt (node .switchExpressionArm (seq [g.pattern, whenClause g, expect .arrow "`=>`",
          g.expression]))
        (node .switchExpressionArm (seq [g.pattern, whenClause g, expect .arrow "`=>`",
          g.expression])) s t :=
    .node ((hg.pattern s t h hname.1).seq ⟨blind_whenClause hg, .expect, hg.expression⟩)
  refine .bump_seq h (readable_of_atKeyword hswitch) fun h' => ?_
  refine .bump_seq h' (readable_ahead hopen nofun) fun h'' => ?_
  have hname : ArmAhead ((s.drop 1).drop 1) ((t.drop 1).drop 1) := by
    rw [List.drop_drop, List.drop_drop]
    exact ⟨sameName_behind_switch h hs, (h.sameCommas hs).drop 2⟩
  refine (AgreeAt.items (fun _ _ h => h.before _) ?_ harm h'' hname).seq Blind.expect
  intro s t ts us s' t' h hname hok hok' hrest hcomma
  exact armAhead_behind hexact h hname hok hok' hrest hcomma

theorem alikeSuffix_binary (least : Nat) : AlikeSuffix (binarySuffix g least) := by
  intro s t h
  refine ⟨by simp only [binarySuffix, h.atKeyword, h.atRightShift, h.kindAhead],
    fun kind tail hsuffix => ?_⟩
  obtain ⟨p, hnext, -⟩ := binarySuffix_eq_some.mp hsuffix
  cases hnext with
  | typeTest _ => exact (Blind.bump s t h).seq (blind_type hg)
  | patternTest _ his =>
    refine .bump_seq h (readable_of_atKeyword his) fun h' => ?_
    exact (hg.pattern _ _ h' (sameName_behind h (by simp [his]))).seq trivial
  | rightShift _ _ =>
    have hsign : Blind (seq [bump, bump]) := .seq ⟨.bump, .bump⟩
    exact (hsign s t h).seq (hg.binary _)
  | operator _ _ _ _ => exact (Blind.bump s t h).seq (hg.binary _)

theorem blind_binary (least : Nat) : Blind (binary g least) :=
  .chain (.chain (blind_unary hg) (alikeSuffix_switch hg)) (alikeSuffix_binary hg least)

theorem blind_coalesce : Blind (coalesce g) := by
  have htail : Blind (seq [bump, g.coalesce]) := .seq ⟨.bump, hg.coalesce⟩
  exact .suffixed (blind_binary hg 1) (.ite (fun _ _ h => h.atKind _) fun s t h _ => htail s t h)

theorem blind_conditional : Blind (conditional g) := by
  have htail : Blind (seq [bump, g.expression, expect .colon "`:`", g.expression]) :=
    .seq ⟨.bump, hg.expression, .expect, hg.expression⟩
  exact .suffixed (blind_coalesce hg) (.ite (fun _ _ h => h.atKind _) fun s t h _ => htail s t h)

/-! ## Lambdas and assignments -/

omit hg in
theorem closesBeforeArrow_alike (depth : Nat) (h : Alike s t) :
    closesBeforeArrow depth t = closesBeforeArrow depth s := by
  induction s generalizing depth t with
  | nil =>
    obtain rfl : t = [] := List.length_eq_zero_iff.mp h.length_eq.symm
    rfl
  | cons a s ih =>
    obtain ⟨hnil, -⟩ | ⟨a', s', b, t, hcons, rfl, hab, htail⟩ := h.eq_nil_or_cons
    · cases hnil
    obtain ⟨rfl, rfl⟩ := List.cons.inj hcons
    rw [closesBeforeArrow, closesBeforeArrow, Token.kind_eq_of_withoutTrivia hab]
    simp only [ih _ htail, htail.atKind]

theorem blind_lambdaBody : Blind (lambdaBody g) :=
  .look (fun _ _ h => by rw [h.atKind]) fun s t h =>
    .ite (fun _ => hg.block s t h) fun _ => hg.expression s t h

theorem blind_expression : Blind (expression g) := by
  have hsimple : Blind (node .simpleLambdaExpression
      (seq [node .parameter bump, bump, lambdaBody g])) :=
    .node (.seq ⟨.node .bump, .bump, blind_lambdaBody hg⟩)
  have hparenthesized : Blind (node .parenthesizedLambdaExpression
      (seq [lambdaParameterList g, expect .arrow "`=>`", lambdaBody g])) :=
    .node (.seq ⟨blind_lambdaParameterList hg, .expect, blind_lambdaBody hg⟩)
  have hvalue : Blind (seq [bump, g.expression]) := .seq ⟨.bump, hg.expression⟩
  refine .look (fun s t h => ?_) fun s t h => ?_
  · simp only [h.atKind, h.kindAhead, closesBeforeArrow_alike 0 h]
  refine .ite (fun _ => hsimple s t h) fun _ => .ite (fun _ => hparenthesized s t h) fun _ => ?_
  refine (blind_conditional hg s t h).extend fun ts us s t htrees h => .suffixed ?_ htrees h
  intro s t h
  refine ⟨by simp only [h.kindAhead], fun kind tail hsuffix => ?_⟩
  obtain ⟨-, -, rfl⟩ := assignmentSuffix_eq_some hsuffix
  exact hvalue s t h

end

/-! ## Patterns -/

/-- The tokens are those of a name, or one of them opens type arguments or ranks. -/
def NameOrBracket (ts : List Tree) : Prop :=
  (∀ a ∈ Tree.tokensOf ts, a.kind.isInName = true) ∨
    ∃ a ∈ Tree.tokensOf ts, a.kind = .lt ∨ a.kind = .openBracket

theorem additive_nameOrBracket : Additive NameOrBracket where
  nil := .inl nofun
  append := by
    intro ts us hts hus
    rw [NameOrBracket, Tree.tokensOf_append]
    rcases hts with hts | ⟨a, ha, hbracket⟩
    · rcases hus with hus | ⟨a, ha, hbracket⟩
      · exact .inl (List.forall_mem_append.mpr ⟨hts, hus⟩)
      · exact .inr ⟨a, List.mem_append_right _ ha, hbracket⟩
    · exact .inr ⟨a, List.mem_append_left _ ha, hbracket⟩

theorem nameOrBracket_node {kind : NodeKind} {ts : List Tree} (h : NameOrBracket ts) :
    NameOrBracket [.node kind ts] := by
  simpa [NameOrBracket, Tree.tokensOf, Tree.tokens] using h

theorem nameOrBracket_token {a : Token} (h : a.kind.isInName = true) : NameOrBracket [.token a] :=
  .inl fun b hb => by
    obtain rfl : b = a := by simpa [Tree.tokensOf, Tree.tokens] using hb
    exact h

theorem makesAt_bump_name {s : List Lexeme} (h : (kindAhead 0 s).isInName = true) :
    MakesAt NameOrBracket bump s := by
  refine .bump_kind rfl (fun hend => ?_) fun a ha => nameOrBracket_token (ha ▸ h)
  rw [hend] at h
  cases h

/-- Trees of which the first token opens type arguments or ranks. -/
theorem makesAt_bracket_seq {s : List Lexeme} {k : TokenKind} {ps : List Production}
    (hs : atKind k s = true) (hk : k = .lt ∨ k = .openBracket) :
    MakesAt NameOrBracket (seq (bump :: ps)) s := by
  have hbump : MakesAt (fun ts => ∃ a, ts = [.token a] ∧ a.kind = k) bump s := by
    refine .bump_kind (beq_iff_eq.mp hs) ?_ fun a ha => ⟨a, rfl, ha⟩
    rcases hk with rfl | rfl
    · nofun
    · nofun
  refine hbump.andThen (Q := fun _ => True) (fun _ _ _ _ _ _ => trivial) ?_
  rintro _ us ⟨a, rfl, rfl⟩ -
  exact .inr ⟨a, by simp [Tree.tokensOf, Tree.tokens], hk⟩

/-- A name, and what follows it where a test holds. -/
theorem makesAt_suffixed {s : List Lexeme} {test : List Lexeme → Bool} {kind : NodeKind}
    {tail : Production} {held : List Tree} (hheld : NameOrBracket held)
    (htail : ∀ s, test s = true → MakesAt NameOrBracket tail s) :
    MakesAt NameOrBracket (suffixed (fun s => if test s then some (kind, tail) else none) held)
      s := by
  refine .suffixed hheld fun kind' tail' hsuffix => ?_
  obtain ⟨hs, rfl, rfl⟩ := suffix_of_ite hsuffix
  have hseq : MakesAt NameOrBracket (seq [tail]) s :=
    additive_nameOrBracket.seqAt (htail s hs) trivial
  exact (MakesAt.keep_seq hseq fun _ => additive_nameOrBracket.append hheld).node
    fun _ => nameOrBracket_node

theorem makes_simpleTypeName (g : Inner) : Makes NameOrBracket (simpleTypeName g) := by
  intro s
  have hname : Makes NameOrBracket (expect .identifier "type name") :=
    .expect nofun fun a ha => nameOrBracket_token (by rw [ha]; rfl)
  refine (hname s).extend fun name s hname => .look ?_
  split
  · rename_i hlt
    have harguments : MakesAt NameOrBracket (typeArguments g) s :=
      (makesAt_bracket_seq hlt (.inl rfl)).node fun _ => nameOrBracket_node
    have hseq : MakesAt NameOrBracket (seq [typeArguments g]) s :=
      additive_nameOrBracket.seqAt harguments trivial
    exact (MakesAt.keep_seq hseq fun _ => additive_nameOrBracket.append hname).node
      fun _ => nameOrBracket_node
  · exact (MakesAt.keep hname).node fun _ => nameOrBracket_node

theorem makes_namedType (g : Inner) : Makes NameOrBracket (namedType g) := by
  intro s
  refine (makes_simpleTypeName g s).extend fun name s hname => makesAt_suffixed hname fun s _ => ?_
  refine additive_nameOrBracket.many (fun s hs => ?_) s
  have hdot : kindAhead 0 s = .dot := beq_iff_eq.mp (Bool.and_eq_true_iff.mp hs).1
  exact additive_nameOrBracket.seqAt (makesAt_bump_name (by rw [hdot]; rfl))
    (makes_simpleTypeName g)

/-- A type is a name with or without `?`, or it has a bracket. -/
theorem makes_type (g : Inner) : Makes NameOrBracket (type g) := by
  intro s
  refine .extend (P := NameOrBracket) (.extend (P := NameOrBracket) (.look ?_)
    fun head s hhead => ?_) fun head s hhead => ?_
  · refine .ite (fun hkeyword => ?_) fun _ => .ite (fun _ => makes_namedType g s) fun _ => Makes.fail s
    refine (makesAt_bump_name ?_).node fun _ => nameOrBracket_node
    rw [atPredefinedType] at hkeyword
    cases hk : kindAhead 0 s with
    | keyword k => simpa [hk, TokenKind.keyword?, TokenKind.isInName] using hkeyword
    | _ => simp [hk, TokenKind.keyword?] at hkeyword
  · refine makesAt_suffixed hhead fun s hs => makesAt_bump_name ?_
    rw [show kindAhead 0 s = .question from beq_iff_eq.mp hs]
    rfl
  · refine makesAt_suffixed hhead fun s _ => additive_nameOrBracket.many (fun s hs => ?_) s
    obtain ⟨hopen, -⟩ := Bool.and_eq_true_iff.mp hs
    exact (makesAt_bracket_seq hopen (.inr rfl)).node fun _ => nameOrBracket_node

section
variable {s t : List Lexeme}

theorem any_fullChars_eq (ts : List Tree) (f : Char → Bool) :
    (ts.any fun t => t.fullChars.any f) = (Tree.tokensOf ts).any fun a => a.fullChars.any f := by
  induction ts with
  | nil => rfl
  | cons t ts ih =>
    rw [List.any_cons, ih, Tree.tokensOf, List.any_append, Tree.fullChars, List.any_flatMap]

/-- A token that opens type arguments or ranks has a bracket in its text. -/
theorem hasBracket_of_kind (h : Alike s t) {l : Lexeme} (hl : l ∈ s)
    (hk : l.token.kind = .lt ∨ l.token.kind = .openBracket) : l.hasBracket = true := by
  have htext := h.spelled l hl hk
  simp only [Lexeme.hasBracket, Token.fullChars, List.any_append, htext, Bool.or_true,
    Bool.true_or]

/-- The first `n` lexemes have the same brackets if all of them belong to a name. -/
theorem map_hasBracket_take (hname : SameName s t) (h : Alike s t) (n : Nat)
    (hs : ∀ l ∈ s.take n, l.token.kind.isInName = true) :
    (s.take n).map Lexeme.hasBracket = (t.take n).map Lexeme.hasBracket := by
  induction n generalizing s t with
  | zero => rfl
  | succ n ih =>
    obtain ⟨rfl, rfl⟩ | ⟨a, s', b, t', rfl, rfl, hab, htail⟩ := h.eq_nil_or_cons
    · rfl
    · rw [List.take_succ_cons, List.forall_mem_cons] at hs
      have ha := hs.1
      have hb : b.token.kind.isInName = true := Token.kind_eq_of_withoutTrivia hab ▸ ha
      simp only [SameName, Lexeme.nameBrackets, List.takeWhile_cons, ha, hb, if_true, List.map_cons,
        List.cons.injEq] at hname
      rw [List.take_succ_cons, List.take_succ_cons, List.map_cons, List.map_cons, hname.1,
        ih hname.2 htail hs.2]

/-- The first `n` lexemes have a bracket in both lists or in none, if they belong to a name or one of
them is a bracket. -/
theorem any_hasBracket_take (hname : SameName s t) (h : Alike s t) (n : Nat)
    (hs : (∀ l ∈ s.take n, l.token.kind.isInName = true) ∨
      ∃ l ∈ s.take n, l.token.kind = .lt ∨ l.token.kind = .openBracket) :
    (t.take n).any Lexeme.hasBracket = (s.take n).any Lexeme.hasBracket := by
  rcases hs with hs | ⟨l, hl, hk⟩
  · have hmap := congrArg (List.any · id) (map_hasBracket_take hname h n hs)
    simpa only [List.any_map, Function.id_comp] using hmap.symm
  · have htokens : (s.take n).map (·.token.withoutTrivia) = (t.take n).map (·.token.withoutTrivia) := by
      rw [List.map_take, List.map_take, h.tokens]
    obtain ⟨m, hm, hlm⟩ := List.mem_map.mp (htokens ▸ List.mem_map_of_mem hl)
    have hkind := Token.kind_eq_of_withoutTrivia hlm
    have hs : (s.take n).any Lexeme.hasBracket = true :=
      List.any_eq_true.mpr ⟨l, hl, hasBracket_of_kind h (List.mem_of_mem_take hl) hk⟩
    have ht : (t.take n).any Lexeme.hasBracket = true :=
      List.any_eq_true.mpr ⟨m, hm, hasBracket_of_kind h.symm (List.mem_of_mem_take hm) (hkind ▸ hk)⟩
    rw [hs, ht]

end

section
variable {g : Inner} (hg : g.Blind) {s t : List Lexeme}
include hg

/-- Whether a type that could be read here has a bracket in its text. -/
theorem looksLikeCompositeType_alike (h : Alike s t) (hname : SameName s t) :
    looksLikeCompositeType g t = looksLikeCompositeType g s := by
  obtain ⟨hs, ht, -, hrest⟩ | ⟨hs, ht⟩ := blind_type hg s t h
  · rename_i ts us s' t'
    obtain ⟨read, rfl, htokens⟩ := exact_type hg.exact s _ _ hs h.ends
    obtain ⟨read', rfl, htokens'⟩ := exact_type hg.exact t _ _ ht h.symm.ends
    have hlength : read.length = read'.length := by
      have hall := h.length_eq
      rw [List.length_append, List.length_append, hrest.length_eq] at hall
      omega
    rw [Tree.tokensOf, List.nil_append] at htokens htokens'
    have hmakes : NameOrBracket ts := makes_type g _ _ _ hs
    have hany := any_hasBracket_take hname h read.length (by
      rw [List.take_left]
      simpa [NameOrBracket, htokens] using hmakes)
    rw [List.take_left, hlength, List.take_left] at hany
    simp only [looksLikeCompositeType, hs, ht, any_fullChars_eq, htokens, htokens', List.any_map]
    exact hany
  · simp only [looksLikeCompositeType, hs, ht]

theorem looksLikeDesignation_alike (h : Alike s t) :
    looksLikeDesignation g t = looksLikeDesignation g s := by
  refine testAfterType_alike hg (fun _ _ h => ?_) h
  simp only [atPatternWord, h.atKind, h.atWord]

theorem blindToName_negatedPattern : BlindToName (negatedPattern g) := by
  intro s t h hname
  have hrelational : Blind (node .relationalPattern (seq [bump, binary g shift])) :=
    .node (.seq ⟨.bump, blind_binary hg shift⟩)
  have hdeclaration : Blind (node .declarationPattern (seq [type g, bump])) :=
    .node (.seq ⟨blind_type hg, .bump⟩)
  refine .look ?_
  simp only [h.atWord, h.atKind, looksLikeDesignation_alike hg h,
    looksLikeCompositeType_alike hg h hname]
  refine .ite (fun hnot => .node ?_) fun _ => .ite (fun _ => hrelational s t h) fun _ =>
    .ite (fun _ => hdeclaration s t h) fun _ => .ite (fun _ => (blind_type hg).node s t h) fun _ =>
    (blind_binary hg shift).node s t h
  refine .bump_seq h (readable_of_atWord hnot) fun h' => ?_
  exact (hg.negatedPattern _ _ h' (sameName_behind h (by simp [hnot]))).seq trivial

theorem blindToName_pattern : BlindToName (pattern g) := by
  have hconjunction : BlindToName (chain (negatedPattern g) fun s =>
      if atWord "and" s then some (.andPattern, seq [bump, negatedPattern g]) else none) := by
    intro s t h hname
    refine (blindToName_negatedPattern hg s t h hname).chain (.ite (fun _ _ h => h.atWord _) ?_)
    intro s t h hand
    refine .bump_seq h (readable_of_atWord hand) fun h' => ?_
    exact (blindToName_negatedPattern hg _ _ h' (sameName_behind h (by simp [hand]))).seq trivial
  intro s t h hname
  refine (hconjunction s t h hname).chain (.ite (fun _ _ h => h.atWord _) fun s t h hor => ?_)
  refine .bump_seq h (readable_of_atWord hor) fun h' => ?_
  exact (hconjunction _ _ h' (sameName_behind h (by simp [hor]))).seq trivial

end

end Grammar

end SharpLint
