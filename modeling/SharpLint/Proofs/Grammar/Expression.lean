import SharpLint.Grammar.Expression
import SharpLint.Proofs.Grammar.Exact

/-!
# Names, types, expressions and patterns are exact

One lemma for each production, in the order of the grammar. Those that start with a `bump` are exact
where they are used, at a readable place (`exactAt_…`); all others are exact everywhere
(`exact_…`). References to other productions go through an `Inner`, so each lemma takes the
exactness of that (`Inner.Exact`).

A look ahead that tries a type reads nothing: where it finds a name behind the type, the type is
read again and the name is there (`exactAt_typeAndName`). What `binary` may do next is said once
(`Continues`), and whoever asks goes by its cases.
-/

namespace SharpLint

open Production

/-- All productions that others refer to are exact. -/
structure Inner.Exact (g : Inner) : Prop where
  type : g.type.Exact
  expression : g.expression.Exact
  unary : g.unary.Exact
  coalesce : g.coalesce.Exact
  binary : ∀ n, (g.binary n).Exact
  pattern : g.pattern.Exact
  negatedPattern : g.negatedPattern.Exact
  initializer : g.initializer.Exact
  block : g.block.Exact
  statement : g.statement.Exact
  member : g.member.Exact
  members : ∀ stop, (g.members stop).Exact

namespace Grammar

/-! ## The operator that comes next -/

/-- A test of the type comes next. -/
def atTest (s : List Lexeme) : Bool := atKeyword .kwAs s || atKeyword .kwIs s

/-- An operator of the given precedence comes next: `binary` reads `tail` for it and makes a node of
the kind. -/
inductive Continues (g : Inner) (s : List Lexeme) : Nat → NodeKind → Production → Prop
  | typeTest : atKeyword .kwAs s = true →
    Continues g s relational .asExpression (seq [bump, type g])
  | patternTest : atKeyword .kwAs s = false → atKeyword .kwIs s = true →
    Continues g s relational .isPatternExpression (seq [bump, g.pattern])
  | rightShift : atTest s = false → atRightShift s = true →
    Continues g s shift .rightShiftExpression (seq [seq [bump, bump], g.binary (shift + 1)])
  | operator {p : Nat} {kind : NodeKind} : atTest s = false → atRightShift s = false →
    NodeKind.ofOperator? (kindAhead 0 s) = some kind → kind.precedence? = some p →
    Continues g s p kind (seq [bump, g.binary (p + 1)])

section
variable {g : Inner} {s : List Lexeme} {kind : NodeKind} {tail : Production}

theorem operatorSuffix?_eq_some {least : Nat} {op : NodeKind} {sign : Production} :
    operatorSuffix? g least op sign = some (kind, tail) ↔ ∃ p, op.precedence? = some p ∧
      least ≤ p ∧ kind = op ∧ tail = seq [sign, g.binary (p + 1)] := by
  unfold operatorSuffix?
  cases hop : op.precedence? with
  | none => simp
  | some p =>
    by_cases hleast : p < least
    · have hnot : ¬least ≤ p := by omega
      simp [hleast, hnot]
    · simp [hleast, Nat.not_lt.mp hleast, eq_comm]

/-- `binary` goes on with an operator exactly if that binds at least as tightly as asked for. -/
theorem binarySuffix_eq_some {least : Nat} :
    binarySuffix g least s = some (kind, tail) ↔ ∃ p, Continues g s p kind tail ∧ least ≤ p := by
  constructor
  · intro h
    unfold binarySuffix at h
    split at h
    · rename_i has
      split at h
      · cases h
      · rename_i hleast
        obtain ⟨rfl, rfl⟩ := Prod.mk.inj (Option.some.inj h)
        exact ⟨relational, .typeTest has, Nat.not_lt.mp hleast⟩
    rename_i has
    have has : atKeyword .kwAs s = false := Bool.eq_false_iff.mpr has
    split at h
    · rename_i his
      split at h
      · cases h
      · rename_i hleast
        obtain ⟨rfl, rfl⟩ := Prod.mk.inj (Option.some.inj h)
        exact ⟨relational, .patternTest has his, Nat.not_lt.mp hleast⟩
    rename_i his
    have htest : atTest s = false := by simp [atTest, has, his]
    split at h
    · rename_i hshift
      obtain ⟨p, hp, hleast, rfl, rfl⟩ := operatorSuffix?_eq_some.mp h
      obtain rfl : shift = p := Option.some.inj hp
      exact ⟨shift, .rightShift htest hshift, hleast⟩
    · rename_i hshift
      obtain ⟨op, hop, hsuffix⟩ := Option.bind_eq_some_iff.mp h
      obtain ⟨p, hp, hleast, rfl, rfl⟩ := operatorSuffix?_eq_some.mp hsuffix
      exact ⟨p, .operator htest (Bool.eq_false_iff.mpr hshift) hop hp, hleast⟩
  · rintro ⟨p, hnext, hleast⟩
    unfold binarySuffix
    cases hnext with
    | typeTest has => simp [has, hleast]
    | patternTest has his => simp [has, his, hleast]
    | rightShift htest hshift =>
      obtain ⟨has, his⟩ := Bool.or_eq_false_iff.mp htest
      simp only [has, his, hshift, Bool.false_eq_true, if_false, if_true]
      exact operatorSuffix?_eq_some.mpr ⟨shift, rfl, hleast, rfl, rfl⟩
    | operator htest hshift hop hp =>
      obtain ⟨has, his⟩ := Bool.or_eq_false_iff.mp htest
      simp only [has, his, hshift, hop, Bool.false_eq_true, if_false, Option.bind_some]
      exact operatorSuffix?_eq_some.mpr ⟨p, hp, hleast, rfl, rfl⟩

/-- What may follow the left side of an assignment. -/
theorem assignmentSuffix_eq_some
    (h : (match NodeKind.ofOperator? (kindAhead 0 s) with
      | some kind => if kind.isAssignment then some (kind, seq [bump, g.expression]) else none
      | none => none) = some (kind, tail)) :
    NodeKind.ofOperator? (kindAhead 0 s) = some kind ∧ kind.isAssignment = true ∧
      tail = seq [bump, g.expression] := by
  split at h
  · rename_i op hop
    obtain ⟨hassignment, rfl, rfl⟩ := suffix_of_ite h
    exact ⟨hop, hassignment, rfl⟩
  · cases h

end

/-! ## Names and types -/

theorem exact_qualifiedName : Exact qualifiedName := by
  refine .suffixed (.node (.expect nofun)) (.ite fun s _ => Exact.many (fun s hs => ?_) s)
  obtain ⟨hdot, hname⟩ := Bool.and_eq_true_iff.mp hs
  exact .bump_seq (readable_of_atKind hdot nofun)
    ((ExactAt.node (.bump (readable_ahead hname nofun))).seq trivial)

section
variable {g : Inner} (hg : g.Exact) {s : List Lexeme}
include hg

theorem exactAt_typeArguments (hs : Readable s) : ExactAt [] (typeArguments g) s :=
  .node ((ExactAt.bump hs).seq ⟨.separated hg.type, .expect nofun⟩)

theorem exact_simpleTypeName : Exact (simpleTypeName g) := by
  refine .extend (.expect nofun) fun name s => .look ?_
  split
  · rename_i hlt
    exact .node (.held_seq ((exactAt_typeArguments hg (readable_of_atKind hlt nofun)).seq trivial))
  · exact .node .keep

theorem exact_namedType : Exact (namedType g) := by
  refine .suffixed (exact_simpleTypeName hg) (.ite fun s _ => Exact.many (fun s hs => ?_) s)
  exact (ExactAt.bump (readable_of_atKind (Bool.and_eq_true_iff.mp hs).1 nofun)).seq
    (exact_simpleTypeName hg)

omit hg in
theorem exactAt_predefinedType (hs : Readable s) : ExactAt [] predefinedType s :=
  .node (.bump hs)

omit hg in
theorem exactAt_rank (hs : Readable s) : ExactAt [] rank s :=
  .node ((ExactAt.bump hs).seq
    ⟨.many fun _ h => .bump (readable_of_atKind h nofun), .expect nofun⟩)

theorem exact_type : Exact (type g) := by
  refine .suffixed (.suffixed (.look fun s => ?_) (.ite fun s hs => ?_)) (.ite fun s _ => ?_)
  · split
    · rename_i h
      exact exactAt_predefinedType (readable_of_keyword? h)
    · split
      · exact exact_namedType hg s
      · exact Exact.fail s
  · exact .bump (readable_of_atKind hs nofun)
  · refine Exact.many (fun s hs => ?_) s
    obtain ⟨hopen, -⟩ := Bool.and_eq_true_iff.mp hs
    exact exactAt_rank (readable_of_atKind hopen nofun)

end

/-! ## Attributes and parameters -/

/-- Inside an attribute list either the closing bracket comes next, or a lexeme is read. -/
theorem insideBrackets_cons {depth : Nat} {l : Lexeme} {s rest : List Lexeme} {ts : List Tree}
    (h : insideBrackets depth (l :: s) = .ok (ts, rest)) :
    (l.token.kind = .closeBracket ∧ ts = [] ∧ rest = l :: s) ∨
      ∃ depth' us, insideBrackets depth' s = .ok (us, rest) ∧ ts = .token l.token :: us := by
  unfold insideBrackets at h
  dsimp only at h
  split at h
  case h_1 => cases h
  case h_2 hclose =>
    split at h
    · obtain ⟨rfl, rfl⟩ := Prod.mk.inj (Except.ok.inj h)
      exact .inl ⟨hclose, rfl, rfl⟩
    · split at h
      · cases h
      · rename_i us rest' hok
        obtain ⟨rfl, rfl⟩ := Prod.mk.inj (Except.ok.inj h)
        exact .inr ⟨_, us, hok, rfl⟩
  all_goals
    split at h
    · cases h
    · rename_i us rest' hok
      obtain ⟨rfl, rfl⟩ := Prod.mk.inj (Except.ok.inj h)
      exact .inr ⟨_, us, hok, rfl⟩

/-- Number of brackets that are open behind a lexeme. -/
def depthBehind (depth : Nat) : TokenKind → Nat
  | .closeBracket => depth - 1
  | .openBracket => depth + 1
  | _ => depth

theorem insideBrackets_eq (depth : Nat) (l : Lexeme) (s : List Lexeme) :
    insideBrackets depth (l :: s) =
      if l.token.kind = .endOfFile then fail "`]`" (l :: s)
      else if l.token.kind = .closeBracket ∧ depth = 0 then empty (l :: s)
      else seq [keep [.token l.token], insideBrackets (depthBehind depth l.token.kind)] s := by
  have hgo (d : Nat) : seq [keep [.token l.token], insideBrackets d] s =
      (insideBrackets d s).map fun r => (.token l.token :: r.1, r.2) := by
    simp only [seq, andThen, keep, empty]
    cases insideBrackets d s with
    | error e => rfl
    | ok r => simp [Except.map]
  rw [hgo]
  conv_lhs => unfold insideBrackets
  dsimp only
  split
  · rename_i hend
    rw [if_pos hend]
  · rename_i hclose
    have hend : l.token.kind ≠ .endOfFile := by
      rw [hclose]
      decide
    rw [if_neg hend]
    by_cases hdepth : depth = 0
    · rw [if_pos hdepth, if_pos ⟨hclose, hdepth⟩]
      rfl
    · rw [if_neg hdepth, if_neg fun h => hdepth h.2, hclose, depthBehind]
      cases insideBrackets (depth - 1) s with
      | error e => rfl
      | ok r => rfl
  · rename_i hopen
    have hend : l.token.kind ≠ .endOfFile := by
      rw [hopen]
      decide
    have hclose : l.token.kind ≠ .closeBracket := by
      rw [hopen]
      decide
    rw [if_neg hend, if_neg fun h => hclose h.1, hopen, depthBehind]
    cases insideBrackets (depth + 1) s with
    | error e => rfl
    | ok r => rfl
  · rename_i hend hclose hopen
    have hdepth : depthBehind depth l.token.kind = depth := by
      unfold depthBehind
      split
      · rename_i hk
        exact absurd hk hclose
      · rename_i hk
        exact absurd hk hopen
      · rfl
    rw [if_neg hend, if_neg fun h => hclose h.1, hdepth]
    cases insideBrackets depth s with
    | error e => rfl
    | ok r => rfl

/-- The inside of an attribute list is read up to a bracket, which closes it. -/
theorem insideBrackets_ok {depth : Nat} {s : List Lexeme} {ts : List Tree} {rest : List Lexeme}
    (h : insideBrackets depth s = .ok (ts, rest)) :
    (∃ read, s = read ++ rest ∧ Tree.tokensOf ts = read.map Lexeme.token) ∧ Readable rest := by
  induction s generalizing depth ts with
  | nil => cases h
  | cons l s ih =>
    obtain ⟨hclose, rfl, rfl⟩ | ⟨depth', us, hok, rfl⟩ := insideBrackets_cons h
    · refine ⟨⟨[], rfl, rfl⟩, fun m hm => ?_⟩
      obtain rfl : l = m := by simpa using hm
      simp [hclose]
    · obtain ⟨⟨read, rfl, htokens⟩, hrest⟩ := ih hok
      exact ⟨⟨l :: read, rfl, by simpa [Tree.tokensOf, Tree.tokens] using htokens⟩, hrest⟩

theorem exact_attributes : Exact attributes := by
  refine .many fun s hs => .node (.bump_seq (readable_of_atKind hs nofun) ?_)
  have hinside : ExactAt [] (insideBrackets 0) (s.drop 1) := fun ts rest hok _ =>
    (insideBrackets_ok hok).1
  exact hinside.andThen fun ts rest hok => (ExactAt.bump (insideBrackets_ok hok).2).seq trivial

theorem exact_modifiers : Exact modifiers :=
  .node (.many fun _ hs => .bump (readable_of_keyword? hs))

theorem exact_parameterModifiers : Exact (node .modifierList (many atParameterModifier bump)) := by
  refine .node (.many fun s hs => .bump (readable_of_kindAhead (n := 0) fun hend => ?_))
  simp [atParameterModifier, hend, TokenKind.keyword?] at hs

section
variable {g : Inner} (hg : g.Exact) {s : List Lexeme}
include hg

theorem exact_elements : Exact (elements g) := by
  refine .seq ⟨.expect nofun, .items (.look fun s => ?_), .expect nofun⟩
  split
  · exact hg.initializer s
  · exact hg.expression s

theorem exact_initializer : Exact (initializer g) := .node (exact_elements hg)

theorem exactAt_equalsValue (hs : Readable s) : ExactAt [] (equalsValue g) s := by
  refine .node ((ExactAt.bump hs).seq (Exact.look fun s => ?_))
  split
  · exact exact_initializer hg s
  · exact hg.expression s

theorem exact_defaultValue : Exact (whenever (atKind .eq) (equalsValue g)) :=
  .whenever fun _ hs => exactAt_equalsValue hg (readable_of_atKind hs nofun)

theorem exact_parameter : Exact (parameter g) :=
  .node (.seq ⟨exact_attributes, exact_parameterModifiers, exact_type hg, .expect nofun,
    exact_defaultValue hg⟩)

omit hg in
theorem exact_listUpTo {close : TokenKind} {what : String} {item : Production}
    (hclose : close ≠ .endOfFile) (hitem : Exact item) : Exact (listUpTo close what item) :=
  .seq ⟨.whenever fun s _ => Exact.separated hitem s, .expect hclose⟩

theorem exact_parameterList : Exact (parameterList g) :=
  .node (.seq ⟨.expect nofun, exact_listUpTo nofun (exact_parameter hg)⟩)

theorem exactAt_bracketedParameterList (hs : Readable s) :
    ExactAt [] (bracketedParameterList g) s :=
  .node ((ExactAt.bump hs).seq ⟨.separated (exact_parameter hg), .expect nofun⟩)

theorem exactAt_lambdaParameterList (hs : Readable s) : ExactAt [] (lambdaParameterList g) s := by
  refine .node ((ExactAt.bump hs).seq (exact_listUpTo nofun (Exact.look fun s => ?_)))
  split
  · rename_i h
    obtain ⟨hname, -⟩ := Bool.and_eq_true_iff.mp h
    exact .node (.bump (readable_of_atKind hname nofun))
  · exact exact_parameter hg s

/-! ## Arguments -/

/-- A type and the lexeme behind it, where a look ahead has found one. -/
theorem exactAt_typeAndName (h : ∀ rest, afterType? g s = some rest → Readable rest) :
    ExactAt [] (seq [type g, bump]) s := by
  refine (exact_type hg s).andThen fun ts rest hok => (ExactAt.bump (h rest ?_)).seq trivial
  simp only [afterType?, hok]

omit hg in
theorem declaresVariable_readable {close : TokenKind} (h : declaresVariable g close s = true) :
    ∀ rest, afterType? g s = some rest → Readable rest := by
  intro rest hrest
  simp only [declaresVariable, hrest] at h
  exact readable_of_atKind (Bool.and_eq_true_iff.mp h).1 nofun

omit hg in
theorem atByReference_readable (h : atByReference s = true) : Readable s := by
  simp only [atByReference, Bool.or_eq_true] at h
  rcases h with (h | h) | h
  · exact readable_of_atKeyword h
  · exact readable_of_atKeyword h
  · exact readable_of_atKeyword h

theorem exact_argument (close : TokenKind) : Exact (argument g close) := by
  refine .node (.seq ⟨.whenever fun s hs => ?_, .look fun s => ?_⟩)
  · obtain ⟨hname, hcolon⟩ := Bool.and_eq_true_iff.mp hs
    exact .node
      (.bump_bump (readable_of_atKind hname nofun) (readable_ahead hcolon nofun) trivial)
  · split
    · rename_i hword
      refine (ExactAt.bump (atByReference_readable hword)).seq (Exact.look fun s => ?_)
      split
      · rename_i hdeclares
        exact .node (exactAt_typeAndName hg (declaresVariable_readable hdeclares))
      · exact hg.expression s
    · exact hg.expression s

theorem exact_argumentList : Exact (argumentList g) :=
  .node (.seq ⟨.expect nofun, exact_listUpTo nofun (exact_argument hg _)⟩)

theorem exactAt_bracketedArgumentList (hs : Readable s) :
    ExactAt [] (bracketedArgumentList g) s :=
  .node ((ExactAt.bump hs).seq (exact_listUpTo nofun (exact_argument hg _)))

/-! ## Primary expressions -/

/-- Behind each length the text goes on, so the loop stops at a bracket. -/
theorem exactAt_lengths (hs : Readable s) : ExactAt [] (lengths g) s := by
  have hlength : Exact (look fun s => if atKind .comma s then bump else g.expression) := by
    refine .look fun s => ?_
    split
    · rename_i hcomma
      exact .bump (readable_of_atKind hcomma nofun)
    · exact hg.expression s
  have hgoesOn : Exact (look fun s => if atEnd s then fail "`]`" else empty) := by
    refine .look fun s => ?_
    split
    · exact Exact.fail s
    · exact Exact.empty s
  refine .node (.bump_seq hs (ExactAt.andThen ?_ fun ts rest hok => (ExactAt.bump ?_).seq trivial))
  · refine Exact.many (fun s _ => ?_) _
    exact (hlength s).seq hgoesOn
  · refine many_stop (fun s hclose => ?_) (fun s ts rest hpart => ?_) nofun hok
    · have hclose : atKind .closeBracket s = true := by simpa using hclose
      exact readable_of_atKind hclose nofun
    · obtain ⟨ts₁, mid, ts₂, -, hrest, -⟩ := andThen_eq_ok hpart
      obtain ⟨ts₃, mid', ts₄, hlook, hempty, -⟩ := andThen_eq_ok hrest
      obtain ⟨-, rfl⟩ := keep_eq_ok hempty
      simp only [look] at hlook
      split at hlook
      · cases hlook
      · rename_i hend
        obtain ⟨-, rfl⟩ := keep_eq_ok hlook
        refine readable_of_kindAhead (n := 0) fun hkind => hend ?_
        simp [atEnd, atKind, hkind]

theorem exact_creationElements : Exact (whenever (atKind .openBrace) (elements g)) :=
  .whenever fun s _ => exact_elements hg s

theorem exactAt_creation (hs : Readable s) : ExactAt [] (creation g) s := by
  refine (ExactAt.bump hs).extend fun new s _ => .look ?_
  split
  · exact .node (.held_seq ((exact_argumentList hg s).seq (exact_creationElements hg)))
  split
  · exact .node (.held_seq ((exact_elements hg s).seq trivial))
  split
  · rename_i hopen
    have hrank : ExactAt [] (node .arrayRankSpecifier (seq [bump, expect .closeBracket "`]`"])) s :=
      .node ((ExactAt.bump (readable_of_atKind hopen nofun)).seq (Exact.expect nofun))
    exact .node (.held_seq (hrank.seq (exact_elements hg)))
  have helement : ExactAt [] (if atPredefinedType s then predefinedType else namedType g) s := by
    split
    · rename_i htype
      exact exactAt_predefinedType (readable_of_keyword? htype)
    · exact exact_namedType hg s
  refine helement.extend_held fun element s _ => .look ?_
  split
  · have hlengths : Exact (many (atKind .openBracket) (lengths g)) :=
      .many fun s hs => exactAt_lengths hg (readable_of_atKind hs nofun)
    have harray : ExactAt element (node .arrayType
        (seq [keep element, many (atKind .openBracket) (lengths g)])) s :=
      .node (.held_seq ((hlengths s).seq trivial))
    exact .node (.keep_seq new (harray.seq (exact_creationElements hg)))
  · have harguments : Exact (whenever (atKind .openParen) (argumentList g)) :=
      .whenever fun s _ => exact_argumentList hg s
    have htail : ExactAt [] (seq [whenever (atKind .openParen) (argumentList g),
        whenever (atKind .openBrace) (elements g)]) s :=
      (harguments s).seq (exact_creationElements hg)
    exact .node (.keep_seq new (.held_seq htail))

theorem exactAt_interpolation (hs : Readable s) : ExactAt [] (interpolation g) s := by
  refine .node ((ExactAt.bump hs).seq ⟨hg.expression, .whenever fun s hcomma => ?_,
    .whenever fun s hcolon => ?_, .expect nofun⟩)
  · exact .node ((ExactAt.bump (readable_of_atKind hcomma nofun)).seq hg.expression)
  · exact .node ((ExactAt.bump (readable_of_atKind hcolon nofun)).seq (Exact.eat nofun))

theorem exactAt_interpolatedString (hs : Readable s) : ExactAt [] (interpolatedString g) s := by
  refine .node ((ExactAt.bump hs).seq ⟨.many fun s hpart => .look ?_, .expect nofun⟩)
  split
  · rename_i htext
    exact .node (.bump (readable_of_atKind htext nofun))
  · rename_i htext
    have hopen : atKind .openBrace s = true := by simpa [htext] using hpart
    exact exactAt_interpolation hg (readable_of_atKind hopen nofun)

theorem exactAt_typeOperand {kind : NodeKind} (hs : Readable s) :
    ExactAt [] (typeOperand g kind) s :=
  .node ((ExactAt.bump hs).seq ⟨.expect nofun, exact_type hg, .expect nofun⟩)

theorem exact_primary : Exact (primary g) := by
  refine .look fun s => ?_
  -- every alternative but the last starts at a lexeme of a known kind
  split <;> rename_i hk
  case h_17 => exact Exact.fail s
  all_goals have hs : Readable s := readable_of_kind hk nofun
  case h_4 => exact exactAt_interpolatedString hg hs
  case h_6 => exact .node ((ExactAt.bump hs).seq ⟨hg.expression, .expect nofun⟩)
  case h_11 => exact exactAt_creation hg hs
  case h_13 =>
    split
    · exact exactAt_typeOperand hg hs
    · exact .node (.bump hs)
  case h_14 => exact exactAt_typeOperand hg hs
  case h_15 => exact .node ((ExactAt.bump hs).seq hg.expression)
  case h_16 =>
    split
    · exact exactAt_predefinedType hs
    · exact Exact.fail s
  all_goals exact .node (.bump hs)

theorem exactSuffix_afterOperand : ExactSuffix (postfixSuffix g) := by
  intro s kind tail h
  have hmember (hs : Readable s) :
      ExactAt [] (seq [bump, node .identifierName (expect .identifier "member name")]) s :=
    (ExactAt.bump hs).seq (Exact.node (.expect nofun))
  unfold postfixSuffix at h
  dsimp only at h
  split at h <;> rename_i hk
  case h_8 => cases h
  all_goals
    have hs : Readable s := readable_of_kind hk nofun
    obtain ⟨rfl, rfl⟩ := Prod.mk.inj (Option.some.inj h)
  case h_1 => exact hmember hs
  case h_2 => exact hmember hs
  case h_3 => exact exact_argumentList hg s
  case h_4 => exact exactAt_bracketedArgumentList hg hs
  all_goals exact .bump hs

/-! ## Operators -/

theorem exact_operand : Exact (chain (primary g) (postfixSuffix g)) :=
  .chain (exact_primary hg) (exactSuffix_afterOperand hg)

theorem exact_unary : Exact (unary g) := by
  refine .look fun s => ?_
  split <;> rename_i hk
  case h_8 => exact exact_operand hg s
  all_goals have hs : Readable s := readable_of_kind hk nofun
  case h_7 =>
    split
    · exact .node ((ExactAt.bump hs).seq ⟨exact_type hg, .expect nofun, hg.unary⟩)
    · exact exact_operand hg s
  all_goals exact .node ((ExactAt.bump hs).seq hg.unary)

theorem exact_whenClause : Exact (whenClause g) :=
  .whenever fun _ hs => .node ((ExactAt.bump (readable_of_atWord hs)).seq hg.expression)

theorem exactSuffix_switch : ExactSuffix (switchSuffix g) := by
  refine .ite fun s hs => ?_
  obtain ⟨hswitch, hopen⟩ := Bool.and_eq_true_iff.mp hs
  have harm : Exact (node .switchExpressionArm
      (seq [g.pattern, whenClause g, expect .arrow "`=>`", g.expression])) :=
    .node (.seq ⟨hg.pattern, exact_whenClause hg, .expect nofun, hg.expression⟩)
  exact .bump_bump (readable_of_atKeyword hswitch) (readable_ahead hopen nofun)
    ⟨.items harm, .expect nofun⟩

omit hg in
theorem atRightShift_readable (h : atRightShift s = true) : Readable s ∧ Readable (s.drop 1) := by
  unfold atRightShift at h
  split at h
  · rename_i a b s
    simp only [Bool.and_eq_true, beq_iff_eq] at h
    refine ⟨fun l hl => ?_, fun l hl => ?_⟩
    · obtain rfl : a = l := by simpa using hl
      simp [h.1.1]
    · obtain rfl : b = l := by simpa using hl
      simp [h.1.2]
  · cases h

omit hg in
theorem ofOperator?_readable {kind : NodeKind} (h : NodeKind.ofOperator? (kindAhead 0 s) = some kind) :
    Readable s := by
  refine readable_of_kindAhead (n := 0) fun hend => ?_
  rw [hend] at h
  cases h

theorem exactSuffix_binary (least : Nat) : ExactSuffix (binarySuffix g least) := by
  intro s kind tail h
  obtain ⟨p, hnext, -⟩ := binarySuffix_eq_some.mp h
  cases hnext with
  | typeTest has => exact (ExactAt.bump (readable_of_atKeyword has)).seq (exact_type hg)
  | patternTest _ his => exact (ExactAt.bump (readable_of_atKeyword his)).seq hg.pattern
  | rightShift _ hshift =>
    obtain ⟨hs, hs'⟩ := atRightShift_readable hshift
    have hsign : ExactAt [] (seq [bump, bump]) s := .bump_bump hs hs' trivial
    exact hsign.seq (hg.binary _)
  | operator _ _ hop _ => exact (ExactAt.bump (ofOperator?_readable hop)).seq (hg.binary _)

theorem exact_binary (least : Nat) : Exact (binary g least) :=
  .chain (.chain (exact_unary hg) (exactSuffix_switch hg)) (exactSuffix_binary hg least)

theorem exact_coalesce : Exact (coalesce g) := by
  refine .suffixed (exact_binary hg 1) (.ite fun s hs => ?_)
  exact (ExactAt.bump (readable_of_atKind hs nofun)).seq hg.coalesce

theorem exact_conditional : Exact (conditional g) := by
  refine .suffixed (exact_coalesce hg) (.ite fun s hs => ?_)
  exact (ExactAt.bump (readable_of_atKind hs nofun)).seq
    ⟨hg.expression, .expect nofun, hg.expression⟩

/-! ## Lambdas and assignments -/

theorem exact_lambdaBody : Exact (lambdaBody g) := by
  refine .look fun s => ?_
  split
  · exact hg.block s
  · exact hg.expression s

theorem exact_expression : Exact (expression g) := by
  refine .look fun s => ?_
  split
  · rename_i hlambda
    obtain ⟨hname, harrow⟩ := Bool.and_eq_true_iff.mp hlambda
    have hparameter : ExactAt [] (node .parameter bump) s :=
      .node (.bump (readable_of_atKind hname nofun))
    refine .node (hparameter.andThen fun ts rest hok => ?_)
    obtain ⟨us, hbump, -⟩ := node_eq_ok hok
    rw [(bump_eq (readable_of_atKind hname nofun) hbump).1]
    exact (ExactAt.bump (readable_ahead harrow nofun)).seq (exact_lambdaBody hg)
  split
  · rename_i hlambda
    obtain ⟨hopen, -⟩ := Bool.and_eq_true_iff.mp hlambda
    exact .node ((exactAt_lambdaParameterList hg (readable_of_atKind hopen nofun)).seq
      ⟨.expect nofun, exact_lambdaBody hg⟩)
  · refine (exact_conditional hg s).extend fun ts s _ => .suffixed fun s kind tail h => ?_
    obtain ⟨hop, -, rfl⟩ := assignmentSuffix_eq_some h
    exact (ExactAt.bump (ofOperator?_readable hop)).seq hg.expression

/-! ## Patterns -/

omit hg in
theorem looksLikeDesignation_readable (h : looksLikeDesignation g s = true) :
    ∀ rest, afterType? g s = some rest → Readable rest := by
  intro rest hrest
  simp only [looksLikeDesignation, hrest] at h
  exact readable_of_atKind (Bool.and_eq_true_iff.mp h).1 nofun

theorem exact_negatedPattern : Exact (negatedPattern g) := by
  refine .look fun s => ?_
  split
  · rename_i hnot
    exact .node ((ExactAt.bump (readable_of_atWord hnot)).seq hg.negatedPattern)
  split
  · rename_i hsign
    simp only [Bool.or_eq_true] at hsign
    have hs : Readable s := by
      rcases hsign with ((h | h) | h) | h
      · exact readable_of_atKind h nofun
      · exact readable_of_atKind h nofun
      · exact readable_of_atKind h nofun
      · exact readable_of_atKind h nofun
    exact .node ((ExactAt.bump hs).seq (exact_binary hg shift))
  split
  · rename_i hname
    exact .node (exactAt_typeAndName hg (looksLikeDesignation_readable hname))
  split
  · exact .node (exact_type hg s)
  · exact .node (exact_binary hg shift s)

theorem exact_pattern : Exact (pattern g) := by
  have hconjunction : Exact (chain (negatedPattern g) fun s =>
      if atWord "and" s then some (.andPattern, seq [bump, negatedPattern g]) else none) := by
    refine .chain (exact_negatedPattern hg) (.ite fun s hs => ?_)
    exact (ExactAt.bump (readable_of_atWord hs)).seq (exact_negatedPattern hg)
  refine .chain hconjunction (.ite fun s hs => ?_)
  exact (ExactAt.bump (readable_of_atWord hs)).seq hconjunction

end

end Grammar

end SharpLint
