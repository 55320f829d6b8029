import SharpLint.Proofs.Grammar.CompilationUnit
import SharpLint.Proofs.Grammar.Rank
import SharpLint.Proofs.Grammar.ShapeExpression

/-!
# Ranks of names, types, expressions and patterns

One lemma for each production, in the order of the grammar. Expressions and types have the lowest
rank, patterns the one above, and arguments the third. What the grammar keeps in front of a suffix
counts as one child with text, so that what follows has to give the second one.
-/

namespace SharpLint

open Production SharpLint.Tree

/-- All productions that others refer to build laid trees. -/
structure Inner.Laid (g : Inner) : Prop where
  type : g.type.Gives 1 1
  expression : g.expression.Gives 1 1
  unary : g.unary.Gives 1 1
  coalesce : g.coalesce.Gives 1 1
  binary : ∀ n, (g.binary n).Gives 1 1
  pattern : g.pattern.Gives 2 1
  negatedPattern : g.negatedPattern.Gives 2 1
  initializer : g.initializer.Gives 1 1
  block : g.block.Gives 1 1
  statement : g.statement.Gives 1 1
  member : g.member.Gives 4 1
  members : ∀ stop, (g.members stop).Gives 5 0

namespace Grammar

/-! ## Names and types -/

theorem gives_identifierName {what : String} :
    Gives 1 1 (node .identifierName (expect .identifier what)) := by
  have hname : Gives 0 1 (expect .identifier what) := .expect nofun
  exact hname.node rfl

theorem kinds_of_atDotName {s : List Lexeme} (h : atDotName s = true) :
    kindAhead 0 s = .dot ∧ kindAhead 1 s = .identifier := by
  simpa [atDotName, atKind] using h

/-- Names behind dots, of which there is one. -/
theorem givesAt_dotted {p : Production} {s : List Lexeme}
    (hp : ∀ s, atDotName s = true → GivesAt 1 1 p s) (hs : atDotName s = true) :
    GivesAt 1 1 (many atDotName p) s :=
  .many (ne_nil_of_kind (kinds_of_atDotName hs).1 nofun) hs hp

theorem gives_qualifiedName : Gives 1 1 qualifiedName := by
  intro s
  have hpart (s : List Lexeme) (hs : atDotName s = true) :
      GivesAt 1 1 (seq [bump, node .identifierName bump]) s := by
    obtain ⟨hdot, hidentifier⟩ := kinds_of_atDotName hs
    have hname : GivesAt 1 1 (node .identifierName bump) (s.drop 1) :=
      (GivesAt.bump (kindAhead_drop.trans hidentifier) nofun).node rfl
    exact (GivesAt.bump_seq hdot nofun (hname.cons .nil)).mono (by decide) (by decide)
  refine (gives_identifierName s).extend fun name s hname => ?_
  refine .suffixed hname fun kind tail hsuffix => ?_
  exact .suffix_ite hname (givesAt_dotted hpart) rfl hsuffix

section
variable {g : Inner} (hg : g.Laid) {s : List Lexeme}
include hg

theorem gives_typeArguments : Gives 1 1 (typeArguments g) := by
  have hclose : Gives 0 1 (expect .gt "`>`") := .expect nofun
  exact (Gives.bump.cons (hg.type.separated.cons (hclose.cons .nil))).node rfl

theorem gives_simpleTypeName : Gives 1 1 (simpleTypeName g) := by
  intro s
  have hname : Gives 0 1 (expect .identifier "type name") := .expect nofun
  refine (hname s).extend fun name s hname => .look (.ite (fun _ => ?_) fun _ => ?_)
  · exact .suffix_node hname (gives_typeArguments hg s) rfl
  · exact (GivesAt.keep hname).node rfl

theorem gives_namedType : Gives 1 1 (namedType g) := by
  intro s
  refine (gives_simpleTypeName hg s).extend fun name s hname => ?_
  have hpart : Gives 1 1 (seq [bump, simpleTypeName g]) :=
    Gives.bump.cons ((gives_simpleTypeName hg).cons .nil)
  refine .suffixed hname fun kind tail hsuffix => ?_
  exact .suffix_ite hname (givesAt_dotted fun s _ => hpart s) rfl hsuffix

omit hg in
theorem givesAt_predefinedType (hs : kindAhead 0 s ≠ .endOfFile) : GivesAt 1 1 predefinedType s :=
  (GivesAt.bump rfl hs).node rfl

theorem givesAt_typeHead :
    GivesAt 1 1 (if atPredefinedType s then predefinedType else namedType g) s :=
  .ite (fun hs => givesAt_predefinedType (kindAhead_of_atPredefinedType hs))
    fun _ => gives_namedType hg s

omit hg in
theorem gives_rank : Gives 2 1 rank := by
  have hcommas : Gives 0 0 (many (atKind .comma) bump) := .many fun s _ => Gives.bump s
  have hclose : Gives 0 1 (expect .closeBracket "`]`") := .expect nofun
  exact (Gives.bump.cons (hcommas.cons (hclose.cons .nil))).node rfl

theorem gives_type : Gives 1 1 (type g) := by
  intro s
  have hhead : GivesAt 1 1 (look fun s =>
      if atPredefinedType s then predefinedType
      else if atKind .identifier s then namedType g
      else fail "type") s :=
    .look (.ite (fun hs => givesAt_predefinedType (kindAhead_of_atPredefinedType hs)) fun _ =>
      .ite (fun _ => gives_namedType hg s) fun _ => Gives.fail s)
  have hmark {s : List Lexeme} (hs : atKind .question s = true) : GivesAt 0 1 bump s :=
    .bump (beq_iff_eq.mp hs) nofun
  have hranks {s : List Lexeme} (hs : atRank s = true) : GivesAt 2 1 (many atRank rank) s := by
    have hopen : kindAhead 0 s = .openBracket := beq_iff_eq.mp (Bool.and_eq_true_iff.mp hs).1
    exact .many (ne_nil_of_kind hopen nofun) hs fun s _ => gives_rank s
  refine GivesAt.extend (h := 1) (c := 1) (GivesAt.extend hhead fun held s hheld => ?_)
    fun held s hheld => ?_
  · exact .suffixed hheld fun kind tail hsuffix => .suffix_ite hheld hmark rfl hsuffix
  · exact .suffixed hheld fun kind tail hsuffix => .suffix_ite hheld hranks rfl hsuffix

end

/-! ## Attributes and parameters -/

theorem gives_insideBrackets (depth : Nat) : Gives 0 0 (insideBrackets depth) := by
  intro s
  induction s generalizing depth with
  | nil => exact fun ts rest hok => nomatch hok
  | cons l s ih =>
    intro ts rest hok
    obtain ⟨-, rfl, -⟩ | ⟨depth', us, hus, rfl⟩ := insideBrackets_cons hok
    · exact .nil
    · have hfirst : Ranked 0 0 [.token l.token] := Gives.bump [l] _ _ rfl
      exact hfirst.append (ih depth' us rest hus)

theorem gives_attributes : Gives 1 0 attributes := by
  refine .many (c := 1) fun s hs => ?_
  have hrest : Gives 0 0 (seq [insideBrackets 0, bump]) :=
    (gives_insideBrackets 0).cons (Gives.bump.cons .nil)
  have hlist : GivesAt 0 1 (seq [bump, insideBrackets 0, bump]) s :=
    (GivesAt.bump (beq_iff_eq.mp hs) nofun).cons hrest
  exact hlist.node rfl

theorem gives_modifierList {test : List Lexeme → Bool} :
    Gives 1 0 (node .modifierList (many test bump)) := by
  have hwords : Gives 0 0 (many test bump) := .many fun s _ => Gives.bump s
  exact hwords.node rfl

theorem gives_modifiers : Gives 1 0 modifiers := gives_modifierList

section
variable {g : Inner} (hg : g.Laid) {s : List Lexeme}
include hg

theorem gives_elements : Gives 1 2 (elements g) := by
  have helement : Gives 1 1 (look fun s => if atKind .openBrace s then g.initializer else g.expression) :=
    .look fun s => .ite (fun _ => hg.initializer s) fun _ => hg.expression s
  have hopen : Gives 0 1 (expect .openBrace "`\x7b`") := .expect nofun
  have hclose : Gives 0 1 (expect .closeBrace "`\x7d`") := .expect nofun
  exact hopen.cons (helement.items.cons (hclose.cons .nil))

theorem gives_initializer : Gives 1 1 (initializer g) := (gives_elements hg).node rfl

theorem gives_equalsValue : Gives 2 1 (equalsValue g) := by
  have hvalue : Gives 1 1 (look fun s => if atKind .openBrace s then initializer g else g.expression) :=
    .look fun s => .ite (fun _ => gives_initializer hg s) fun _ => hg.expression s
  exact (Gives.bump.cons (hvalue.cons .nil)).node rfl

theorem gives_defaultValue : Gives 2 0 (whenever (atKind .eq) (equalsValue g)) :=
  .whenever fun s _ => gives_equalsValue hg s

theorem gives_parameter : Gives 1 1 (parameter g) := by
  have hname : Gives 0 1 (expect .identifier "parameter name") := .expect nofun
  exact (gives_attributes.cons (gives_modifierList.cons ((gives_type hg).cons
    (hname.cons ((gives_defaultValue hg).cons .nil))))).node rfl

omit hg in
theorem gives_listUpTo {close : TokenKind} {what : String} {item : Production} {h c : Nat}
    (hclose : close ≠ .endOfFile) (hitem : Gives h c item) :
    Gives h 1 (listUpTo close what item) := by
  have hitems : Gives h 0 (whenever (fun s => !atKind close s) (separated item)) :=
    .whenever fun s _ => hitem.separated s
  have hend : Gives 0 1 (expect close what) := .expect hclose
  exact (hitems.cons (hend.cons .nil)).mono (by omega) (by omega)

theorem gives_parameterList : Gives 2 1 (parameterList g) := by
  have hopen : Gives 0 1 (expect .openParen "`(`") := .expect nofun
  have hitems : Gives 1 1 (listUpTo .closeParen "`)`" (parameter g)) :=
    gives_listUpTo nofun (gives_parameter hg)
  exact (hopen.cons (hitems.cons .nil)).node rfl

theorem gives_bracketedParameterList : Gives 1 1 (bracketedParameterList g) := by
  have hclose : Gives 0 1 (expect .closeBracket "`]`") := .expect nofun
  exact (Gives.bump.cons ((gives_parameter hg).separated.cons (hclose.cons .nil))).node rfl

theorem gives_lambdaParameterList : Gives 2 1 (lambdaParameterList g) := by
  have hitem : Gives 1 1 (look fun s =>
      if atKind .identifier s && (kindAhead 1 s == .comma || kindAhead 1 s == .closeParen) then
        node .parameter bump
      else parameter g) := by
    refine .look fun s => .ite (fun hs => ?_) fun _ => gives_parameter hg s
    exact (GivesAt.bump (beq_iff_eq.mp (Bool.and_eq_true_iff.mp hs).1) nofun).node rfl
  have hitems : Gives 1 1 (listUpTo .closeParen "`)`" _) := gives_listUpTo nofun hitem
  exact (Gives.bump.cons (hitems.cons .nil)).node rfl

/-! ## Arguments -/

theorem gives_argument (close : TokenKind) : Gives 3 1 (argument g close) := by
  have hname : Gives 1 0 (whenever (fun s => atKind .identifier s && kindAhead 1 s == .colon)
      (node .nameColon (seq [bump, bump]))) := by
    refine .whenever (c := 1) fun s hs => ?_
    have hcolon : GivesAt 0 1 (seq [bump, bump]) s :=
      (GivesAt.bump (beq_iff_eq.mp (Bool.and_eq_true_iff.mp hs).1) nofun).cons (Gives.bump.cons .nil)
    exact hcolon.node rfl
  have hdeclares : Gives 2 1 (node .declarationExpression (seq [type g, bump])) :=
    ((gives_type hg).cons (Gives.bump.cons .nil)).node rfl
  have hexpression : Gives 2 1 g.expression := hg.expression.mono (by decide) (by decide)
  have hvalue : Gives 2 1 (look fun s => if declaresVariable g close s then
      node .declarationExpression (seq [type g, bump]) else g.expression) :=
    .look fun s => .ite (fun _ => hdeclares s) fun _ => hexpression s
  have hbyReference : Gives 2 1 (seq [bump, look fun s => if declaresVariable g close s then
      node .declarationExpression (seq [type g, bump]) else g.expression]) :=
    Gives.bump.cons (hvalue.cons .nil)
  have hpassed : Gives 2 1 (look fun s => if atByReference s then
      seq [bump, look fun s => if declaresVariable g close s then
        node .declarationExpression (seq [type g, bump]) else g.expression] else g.expression) :=
    .look fun s => .ite (fun _ => hbyReference s) fun _ => hexpression s
  exact (hname.cons (hpassed.cons .nil)).node rfl

theorem gives_argumentList : Gives 1 1 (argumentList g) := by
  have hopen : Gives 0 1 (expect .openParen "`(`") := .expect nofun
  have harguments : Gives 3 1 (listUpTo .closeParen "`)`" (argument g .closeParen)) :=
    gives_listUpTo nofun (gives_argument hg .closeParen)
  exact (hopen.cons (harguments.cons .nil)).node rfl

theorem givesAt_bracketedArgumentList (hs : kindAhead 0 s = .openBracket) :
    GivesAt 1 1 (bracketedArgumentList g) s := by
  have harguments : Gives 3 1 (listUpTo .closeBracket "`]`" (argument g .closeBracket)) :=
    gives_listUpTo nofun (gives_argument hg .closeBracket)
  exact ((GivesAt.bump hs nofun).cons (harguments.cons .nil)).node rfl

/-! ## Primary expressions -/

theorem givesAt_lengths (hs : kindAhead 0 s = .openBracket) : GivesAt 2 1 (lengths g) s := by
  have hlength : Gives 1 0 (look fun s => if atKind .comma s then bump else g.expression) :=
    .look fun s => .ite (fun _ => (Gives.bump s).mono (by decide) (by decide)) fun _ =>
      (hg.expression s).mono (by decide) (by decide)
  have hgoesOn : Gives 0 0 (look fun s => if atEnd s then fail "`]`" else empty) :=
    .look fun s => .ite (fun _ => Gives.fail s) fun _ => Gives.empty s
  have hpart : Gives 1 0 (seq [look fun s => if atKind .comma s then bump else g.expression,
      look fun s => if atEnd s then fail "`]`" else empty]) := hlength.cons (hgoesOn.cons .nil)
  have hparts : Gives 1 0 (many (fun s => !atKind .closeBracket s)
      (seq [look fun s => if atKind .comma s then bump else g.expression,
        look fun s => if atEnd s then fail "`]`" else empty])) := .many fun s _ => hpart s
  exact ((GivesAt.bump hs nofun).cons (hparts.cons (Gives.bump.cons .nil))).node rfl

theorem gives_creationElements : Gives 1 0 (whenever (atKind .openBrace) (elements g)) :=
  .whenever fun s _ => gives_elements hg s

theorem givesAt_creation (hs : kindAhead 0 s = .keyword .kwNew) : GivesAt 1 1 (creation g) s := by
  refine (GivesAt.bump hs nofun).extend fun new s hnew => .look ?_
  refine .ite (fun _ => ?_) fun _ => .ite (fun _ => ?_) fun _ => .ite (fun _ => ?_) fun _ => ?_
  · have htail : Gives 1 1 (seq [argumentList g, whenever (atKind .openBrace) (elements g)]) :=
      (gives_argumentList hg).cons ((gives_creationElements hg).cons .nil)
    exact (GivesAt.keep_seq hnew (htail s)).node rfl
  · exact .suffix_node hnew (gives_elements hg s) rfl
  · have hclose : Gives 0 1 (expect .closeBracket "`]`") := .expect nofun
    have hrank : Gives 2 1 (node .arrayRankSpecifier (seq [bump, expect .closeBracket "`]`"])) :=
      (Gives.bump.cons (hclose.cons .nil)).node rfl
    have htail : Gives 2 3 (seq [node .arrayRankSpecifier (seq [bump, expect .closeBracket "`]`"]),
        elements g]) := hrank.cons ((gives_elements hg).cons .nil)
    exact (GivesAt.keep_seq hnew (htail s)).node rfl
  refine (givesAt_typeHead hg).extend fun element s helement => .look (.ite (fun hopen => ?_) fun _ => ?_)
  · have hlengths : GivesAt 2 1 (many (atKind .openBracket) (lengths g)) s :=
      .many (ne_nil_of_atKind hopen nofun) hopen fun s hs => givesAt_lengths hg (beq_iff_eq.mp hs)
    have harray : GivesAt 1 1
        (node .arrayType (seq [keep element, many (atKind .openBracket) (lengths g)])) s :=
      .suffix_node helement hlengths rfl
    exact (GivesAt.keep_seq hnew (harray.cons ((gives_creationElements hg).cons .nil))).node rfl
  · have harguments : Gives 1 0 (whenever (atKind .openParen) (argumentList g)) :=
      .whenever fun s _ => gives_argumentList hg s
    have htail : Gives 1 0 (seq [whenever (atKind .openParen) (argumentList g),
        whenever (atKind .openBrace) (elements g)]) :=
      harguments.cons ((gives_creationElements hg).cons .nil)
    exact (GivesAt.keep_seq hnew (GivesAt.keep_seq helement (htail s))).node rfl

theorem gives_interpolation : Gives 1 1 (interpolation g) := by
  have halignment : Gives 2 0 (whenever (atKind .comma)
      (node .interpolationAlignmentClause (seq [bump, g.expression]))) := by
    have hclause : Gives 2 1 (node .interpolationAlignmentClause (seq [bump, g.expression])) :=
      (Gives.bump.cons (hg.expression.cons .nil)).node rfl
    exact .whenever fun s _ => hclause s
  have hformat : Gives 1 0 (whenever (atKind .colon)
      (node .interpolationFormatClause (seq [bump, eat .interpolatedFormatText]))) := by
    refine .whenever (c := 1) fun s hs => ?_
    have hclause : GivesAt 0 1 (seq [bump, eat .interpolatedFormatText]) s :=
      (GivesAt.bump (beq_iff_eq.mp hs) nofun).cons (Gives.eat.cons .nil)
    exact hclause.node rfl
  have hclose : Gives 0 1 (expect .closeBrace "`\x7d`") := .expect nofun
  exact (Gives.bump.cons (hg.expression.cons (halignment.cons (hformat.cons
    (hclose.cons .nil))))).node rfl

theorem givesAt_interpolatedString (hs : kindAhead 0 s = .interpolatedStringStart) :
    GivesAt 1 1 (interpolatedString g) s := by
  have hparts : Gives 1 0 (many (fun s => atKind .interpolatedStringText s || atKind .openBrace s)
      (look fun s => if atKind .interpolatedStringText s then node .interpolatedStringText bump
        else interpolation g)) := by
    refine .many (c := 1) fun s _ => .look (.ite (fun hs => ?_) fun _ => gives_interpolation hg s)
    exact (GivesAt.bump (beq_iff_eq.mp hs) nofun).node rfl
  have hend : Gives 0 1 (expect .interpolatedStringEnd "interpolated string content") := .expect nofun
  exact ((GivesAt.bump hs nofun).cons (hparts.cons (hend.cons .nil))).node rfl

theorem gives_typeOperand {kind : NodeKind} (hk : kind.fits 1 3 1 1 = true) :
    Gives 1 1 (typeOperand g kind) := by
  have hopen : Gives 0 1 (expect .openParen "`(`") := .expect nofun
  have hclose : Gives 0 1 (expect .closeParen "`)`") := .expect nofun
  exact (Gives.bump.cons (hopen.cons ((gives_type hg).cons (hclose.cons .nil)))).node hk

theorem gives_primary : Gives 1 1 (primary g) := by
  intro s
  refine .look ?_
  have hbump {k : TokenKind} {kind : NodeKind} (hs : kindAhead 0 s = k) (hk : k ≠ .endOfFile)
      (hkind : kind.fits 0 1 1 1 = true) : GivesAt 1 1 (node kind bump) s :=
    (GivesAt.bump hs hk).node hkind
  split
  case h_4 hs => exact givesAt_interpolatedString hg hs
  case h_6 hs =>
    have hclose : Gives 0 1 (expect .closeParen "`)`") := .expect nofun
    exact ((GivesAt.bump hs nofun).cons (hg.expression.cons (hclose.cons .nil))).node rfl
  case h_11 hs => exact givesAt_creation hg hs
  case h_13 hs =>
    exact .ite (fun _ => gives_typeOperand hg rfl s) fun _ => hbump hs nofun rfl
  case h_14 hs => exact gives_typeOperand hg rfl s
  case h_15 hs => exact ((GivesAt.bump hs nofun).cons (hg.expression.cons .nil)).node rfl
  case h_16 k hs =>
    exact .ite (fun _ => givesAt_predefinedType (by rw [hs]; exact nofun)) fun _ => Gives.fail s
  case h_17 => exact Gives.fail s
  all_goals
    rename_i hs
    exact hbump hs nofun rfl

theorem givesAt_afterOperand {held : List Tree} {kind : NodeKind} {tail : Production}
    (hheld : Ranked 1 1 held) (hsuffix : postfixSuffix g s = some (kind, tail)) :
    GivesAt 1 1 (node kind (seq [keep held, tail])) s := by
  have hmember : Gives 1 1
      (seq [bump, node .identifierName (expect .identifier "member name")]) :=
    Gives.bump.cons (gives_identifierName.cons .nil)
  unfold postfixSuffix at hsuffix
  dsimp only at hsuffix
  split at hsuffix
  case h_8 => cases hsuffix
  all_goals
    obtain ⟨rfl, rfl⟩ := Prod.mk.inj (Option.some.inj hsuffix)
    rename_i hs
  case h_1 => exact .suffix_node hheld (hmember s) rfl
  case h_2 => exact .suffix_node hheld (hmember s) rfl
  case h_3 => exact .suffix_node hheld (gives_argumentList hg s) rfl
  case h_4 => exact .suffix_node hheld (givesAt_bracketedArgumentList hg hs) rfl
  all_goals exact .suffix_node hheld (GivesAt.bump hs nofun) rfl

/-! ## Operators -/

theorem gives_operand : Gives 1 1 (chain (primary g) (postfixSuffix g)) :=
  .chain (gives_primary hg) fun _ _ _ _ hheld hsuffix => givesAt_afterOperand hg hheld hsuffix

theorem gives_unary : Gives 1 1 (unary g) := by
  intro s
  refine .look ?_
  split
  case h_7 =>
    refine .ite (fun _ => ?_) fun _ => gives_operand hg s
    have hclose : Gives 0 1 (expect .closeParen "`)`") := .expect nofun
    exact (Gives.bump.cons ((gives_type hg).cons (hclose.cons (hg.unary.cons .nil)))).node rfl s
  case h_8 => exact gives_operand hg s
  all_goals
    rename_i hs
    exact ((GivesAt.bump hs nofun).cons (hg.unary.cons .nil)).node rfl

theorem gives_whenClause : Gives 2 0 (whenClause g) := by
  have hclause : Gives 2 1 (node .whenClause (seq [bump, g.expression])) :=
    (Gives.bump.cons (hg.expression.cons .nil)).node rfl
  exact .whenever fun s _ => hclause s

theorem gives_switched : Gives 1 1 (chain (unary g) (switchSuffix g)) := by
  have harrow : Gives 0 1 (expect .arrow "`=>`") := .expect nofun
  have hclose : Gives 0 1 (expect .closeBrace "`\x7d`") := .expect nofun
  have harm : Gives 1 1 (node .switchExpressionArm
      (seq [g.pattern, whenClause g, expect .arrow "`=>`", g.expression])) :=
    (hg.pattern.cons ((gives_whenClause hg).cons (harrow.cons (hg.expression.cons .nil)))).node rfl
  have harms : Gives 1 1 (seq [bump, bump, items (before .closeBrace) (node .switchExpressionArm
      (seq [g.pattern, whenClause g, expect .arrow "`=>`", g.expression])),
      expect .closeBrace "`\x7d`"]) :=
    Gives.bump.cons (Gives.bump.cons (harm.items.cons (hclose.cons .nil)))
  refine .chain (gives_unary hg) fun held s kind tail hheld hsuffix => ?_
  obtain ⟨-, rfl, rfl⟩ := suffix_of_ite hsuffix
  exact .suffix_node hheld (harms s) rfl

omit hg in
theorem fits_of_isBinary {kind : NodeKind} (h : kind.isBinary = true) :
    kind.fits 1 2 1 1 = true := by
  cases kind
  all_goals first
    | (cases h; done)
    | rfl

omit hg in
/-- Two operands around a sign make an operation, whatever the operator. -/
theorem givesAt_operation {held : List Tree} {kind : NodeKind} {sign right : Production}
    (hheld : Ranked 1 1 held) (hsign : Gives 0 0 sign) (hright : Gives 1 1 right)
    (hkind : kind.isBinary = true) :
    GivesAt 1 1 (node kind (seq [keep held, seq [sign, right]])) s := by
  have htail : Gives 1 1 (seq [sign, right]) := hsign.cons (hright.cons .nil)
  exact .suffix_node hheld (htail s) (fits_of_isBinary hkind)

theorem givesAt_binarySuffix {held : List Tree} {least : Nat} {kind : NodeKind} {tail : Production}
    (hheld : Ranked 1 1 held) (hsuffix : binarySuffix g least s = some (kind, tail)) :
    GivesAt 1 1 (node kind (seq [keep held, tail])) s := by
  have has : Gives 1 1 (seq [bump, type g]) := Gives.bump.cons ((gives_type hg).cons .nil)
  have his : Gives 2 1 (seq [bump, g.pattern]) := Gives.bump.cons (hg.pattern.cons .nil)
  obtain ⟨p, hnext, -⟩ := binarySuffix_eq_some.mp hsuffix
  cases hnext with
  | typeTest _ => exact .suffix_node hheld (has s) rfl
  | patternTest _ _ => exact .suffix_node hheld (his s) rfl
  | rightShift _ _ =>
    exact givesAt_operation hheld (Gives.bump.cons (Gives.bump.cons .nil)) (hg.binary _) rfl
  | operator _ _ _ hp =>
    exact givesAt_operation hheld Gives.bump (hg.binary _) (isBinary_of_precedence hp)

theorem gives_binary (least : Nat) : Gives 1 1 (binary g least) :=
  .chain (gives_switched hg) fun _ _ _ _ hheld hsuffix => givesAt_binarySuffix hg hheld hsuffix

theorem gives_coalesce : Gives 1 1 (coalesce g) := by
  intro s
  refine (gives_binary hg 1 s).extend fun held s hheld => .suffixed hheld fun kind tail hsuffix => ?_
  have hright : Gives 1 1 (seq [bump, g.coalesce]) := Gives.bump.cons (hg.coalesce.cons .nil)
  exact .suffix_ite hheld (fun _ => hright s) rfl hsuffix

theorem gives_conditional : Gives 1 1 (conditional g) := by
  intro s
  refine (gives_coalesce hg s).extend fun held s hheld => .suffixed hheld fun kind tail hsuffix => ?_
  have hcolon : Gives 0 1 (expect .colon "`:`") := .expect nofun
  have hcases : Gives 1 3 (seq [bump, g.expression, expect .colon "`:`", g.expression]) :=
    Gives.bump.cons (hg.expression.cons (hcolon.cons (hg.expression.cons .nil)))
  exact .suffix_ite hheld (fun _ => hcases s) rfl hsuffix

/-! ## Lambdas and assignments -/

theorem gives_lambdaBody : Gives 1 1 (lambdaBody g) :=
  .look fun s => .ite (fun _ => hg.block s) fun _ => hg.expression s

theorem gives_expression : Gives 1 1 (expression g) := by
  intro s
  refine .look (.ite (fun hsimple => ?_) fun _ => .ite (fun _ => ?_) fun _ => ?_)
  · have hname : kindAhead 0 s = .identifier := beq_iff_eq.mp (Bool.and_eq_true_iff.mp hsimple).1
    have hparameter : GivesAt 1 1 (node .parameter bump) s := (GivesAt.bump hname nofun).node rfl
    have hbody : Gives 1 1 (seq [bump, lambdaBody g]) :=
      Gives.bump.cons ((gives_lambdaBody hg).cons .nil)
    exact (hparameter.cons hbody).node rfl
  · have harrow : Gives 0 1 (expect .arrow "`=>`") := .expect nofun
    exact ((gives_lambdaParameterList hg).cons (harrow.cons ((gives_lambdaBody hg).cons .nil))).node
      rfl s
  · refine (gives_conditional hg s).extend fun held s hheld =>
      .suffixed hheld fun kind tail hsuffix => ?_
    obtain ⟨-, hassignment, rfl⟩ := assignmentSuffix_eq_some hsuffix
    exact givesAt_operation hheld Gives.bump hg.expression (isBinary_of_isAssignment hassignment)

/-! ## Patterns -/

theorem gives_negatedPattern : Gives 2 1 (negatedPattern g) := by
  have hrelational : Gives 2 1 (node .relationalPattern (seq [bump, binary g shift])) :=
    (Gives.bump.cons ((gives_binary hg shift).cons .nil)).node rfl
  have hdeclaration : Gives 2 1 (node .declarationPattern (seq [type g, bump])) :=
    ((gives_type hg).cons (Gives.bump.cons .nil)).node rfl
  have htype : Gives 2 1 (node .typePattern (type g)) := (gives_type hg).node rfl
  have hconstant : Gives 2 1 (node .constantPattern (binary g shift)) := (gives_binary hg shift).node rfl
  refine .look fun s => .ite (fun hs => ?_) fun _ => .ite (fun _ => hrelational s) fun _ =>
    .ite (fun _ => hdeclaration s) fun _ => .ite (fun _ => htype s) fun _ => hconstant s
  have hword : kindAhead 0 s = .identifier := beq_iff_eq.mp (Bool.and_eq_true_iff.mp hs).1
  exact ((GivesAt.bump hword nofun).cons (hg.negatedPattern.cons .nil)).node rfl

omit hg in
/-- Patterns with a word between them. -/
theorem gives_joinedPatterns {p q : Production} {word : String} {kind : NodeKind} (hp : Gives 2 1 p)
    (hq : Gives 2 1 q) (hkind : kind.fits 2 2 2 1 = true) :
    Gives 2 1 (chain p fun s => if atWord word s then some (kind, seq [bump, q]) else none) := by
  have htail : Gives 2 1 (seq [bump, q]) := Gives.bump.cons (hq.cons .nil)
  exact .chain hp fun held s kind tail hheld hsuffix =>
    .suffix_ite hheld (fun _ => htail s) hkind hsuffix

theorem gives_pattern : Gives 2 1 (pattern g) := by
  have hconjunction : Gives 2 1 (chain (negatedPattern g) fun s =>
      if atWord "and" s then some (.andPattern, seq [bump, negatedPattern g]) else none) :=
    gives_joinedPatterns (gives_negatedPattern hg) (gives_negatedPattern hg) rfl
  exact gives_joinedPatterns hconjunction hconjunction rfl

end

end Grammar

end SharpLint
