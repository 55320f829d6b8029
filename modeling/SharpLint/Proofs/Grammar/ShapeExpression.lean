import SharpLint.Proofs.Grammar.Shape

/-!
# Shapes of names, types, expressions and patterns

One lemma for each production, in the order of the grammar. An expression builds one expression, so
that what follows an operand finds an expression to its left (`buildsAt_afterOperand`,
`buildsAt_binarySuffix`).
-/

namespace SharpLint

open Production SharpLint.Tree

/-- All productions that others refer to build shaped trees. -/
structure Inner.Shaped (g : Inner) : Prop where
  type : g.type.Builds IsType
  expression : g.expression.Builds IsOperand
  unary : g.unary.Builds IsOperand
  coalesce : g.coalesce.Builds IsOperand
  binary : ∀ n, (g.binary n).Builds IsOperand
  pattern : g.pattern.Plain
  negatedPattern : g.negatedPattern.Plain
  initializer : g.initializer.Plain
  block : g.block.Plain
  statement : g.statement.Plain
  member : g.member.Plain
  members : ∀ stop, (g.members stop).Plain

namespace Grammar

/-! ## Names and types -/

theorem builds_identifierName {what : String} :
    Builds (IsOnly (.node .identifierName)) (node .identifierName (expect .identifier what)) := by
  have hname : Builds (IsOnly (.token .identifier)) (expect .identifier what) := .expect nofun
  refine hname.node ?_
  rintro _ rfl
  exact ⟨⟨nofun, nofun⟩, fun _ => solid_of_token nofun⟩

theorem builds_qualifiedName : Builds IsName qualifiedName := by
  intro s
  refine (builds_identifierName s).extend fun name s hname => ?_
  refine .suffixed ⟨hname.1, .inl hname.2⟩ fun kind tail hsuffix => ?_
  obtain ⟨-, rfl, rfl⟩ := suffix_of_ite hsuffix
  have hpart : Plain (many atDotName (seq [bump, node .identifierName bump])) := by
    refine .many fun s hs => ?_
    have hdot : kindAhead 0 s = .dot := beq_iff_eq.mp (Bool.and_eq_true_iff.mp hs).1
    have hidentifier : kindAhead 1 s = .identifier := beq_iff_eq.mp (Bool.and_eq_true_iff.mp hs).2
    have hname : BuildsAt (IsOnly (.node .identifierName)) (node .identifierName bump) (s.drop 1) :=
      .bump_node (kindAhead_drop.trans hidentifier) nofun ⟨nofun, nofun⟩
    have hnames : BuildsAt (Concat [IsOnly (.node .identifierName)])
        (seq [node .identifierName bump]) (s.drop 1) := hname.seq .nil
    refine (BuildsAt.seq_second (BuildsAt.bump hdot nofun) (fun ts rest hok => ?_) hnames).plain
    exact (bump_eq (readable_of_kind hdot nofun) hok).1
  have hseq : PlainAt (seq [keep name, many atDotName (seq [bump, node .identifierName bump])]) s :=
    .keep_seq hname.1 ((hpart s).seq trivial)
  exact (hseq.free_builds rfl).mono fun _ => .inr

section
variable {g : Inner} (hg : g.Shaped) {s : List Lexeme}
include hg

theorem plain_typeArguments : Plain (typeArguments g) :=
  .free_node (.seq ⟨.bump, .separated hg.type.plain, .expect⟩) rfl

theorem builds_simpleTypeName : Builds IsType (simpleTypeName g) := by
  intro s
  have hname : Builds (IsOnly (.token .identifier)) (expect .identifier "type name") := .expect nofun
  refine (hname s).extend fun name s hname => .look (.ite (fun _ => ?_) fun _ => ?_)
  · have hseq : PlainAt (seq [keep name, typeArguments g]) s :=
      .keep_seq hname.1 ((plain_typeArguments hg s).seq trivial)
    exact (hseq.free_builds rfl).typeForm rfl
  · refine ((BuildsAt.keep hname).node ?_).typeForm rfl
    rintro _ rfl
    exact ⟨⟨nofun, nofun⟩, fun _ => solid_of_token nofun⟩

omit hg in
/-- A type, or a dotted name, with a suffix that makes it another one. -/
theorem buildsAt_typeSuffix {test : List Lexeme → Bool} {kind : NodeKind} {tail : Production}
    {held : List Tree} (hheld : Labelled IsType held) (htail : Plain tail)
    (hfree : kind.isFree = true) (hk : kind.isTypeForm = true) :
    BuildsAt IsType (suffixed (fun s => if test s then some (kind, tail) else none) held) s := by
  refine .suffixed hheld fun kind' tail' hsuffix => ?_
  obtain ⟨-, rfl, rfl⟩ := suffix_of_ite hsuffix
  have hseq : PlainAt (seq [keep held, tail]) s := .keep_seq hheld.1 ((htail s).seq trivial)
  exact (hseq.free_builds hfree).typeForm hk

theorem builds_namedType : Builds IsType (namedType g) := by
  intro s
  have hpart : Plain (many atDotName (seq [bump, simpleTypeName g])) :=
    .many fun s _ => (Plain.bump s).seq (builds_simpleTypeName hg).plain
  exact (builds_simpleTypeName hg s).extend fun name s hname =>
    buildsAt_typeSuffix hname hpart rfl rfl

omit hg in
theorem buildsAt_predefinedType (hs : kindAhead 0 s ≠ .endOfFile) :
    BuildsAt (IsOnly (.node .predefinedType)) predefinedType s :=
  .bump_node rfl hs ⟨nofun, nofun⟩

omit hg in
theorem kindAhead_of_atPredefinedType (h : atPredefinedType s = true) :
    kindAhead 0 s ≠ .endOfFile := by
  intro hend
  simp [atPredefinedType, hend, TokenKind.keyword?] at h

theorem plainAt_typeHead : PlainAt (if atPredefinedType s then predefinedType else namedType g) s :=
  .ite (fun hs => (buildsAt_predefinedType (kindAhead_of_atPredefinedType hs)).plain)
    fun _ => (builds_namedType hg).plain s

omit hg in
theorem plain_rank : Plain rank :=
  .free_node (.seq ⟨.bump, .many fun s _ => Plain.bump s, .expect⟩) rfl

theorem builds_type : Builds IsType (type g) := by
  have hranks : Plain (many atRank rank) := .many fun s _ => plain_rank s
  intro s
  refine BuildsAt.extend (L := IsType) (BuildsAt.extend (L := IsType) (.look ?_)
    fun head s hhead => buildsAt_typeSuffix hhead .bump rfl rfl)
    fun head s hhead => buildsAt_typeSuffix hhead hranks rfl rfl
  refine .ite (fun hs => ?_) fun _ => .ite (fun _ => builds_namedType hg s) fun _ => Builds.fail s
  exact (buildsAt_predefinedType (kindAhead_of_atPredefinedType hs)).typeForm rfl

theorem plain_type : Plain (type g) := (builds_type hg).plain

end

/-! ## Attributes and parameters -/

theorem plain_insideBrackets (depth : Nat) : Plain (insideBrackets depth) := by
  intro s
  induction s generalizing depth with
  | nil => exact fun ts rest hok => nomatch hok
  | cons l s ih =>
    intro ts rest hok
    obtain ⟨-, rfl, -⟩ | ⟨depth', us, hus, rfl⟩ := insideBrackets_cons hok
    · trivial
    · exact ⟨trivial, ih depth' us rest hus⟩

/-- Any number of attribute lists. -/
def IsAttributes (ls : List Label) : Prop := ∃ n, ls = List.replicate n (.node .attributeList)

theorem builds_attributes : Builds IsAttributes attributes := by
  have hlist : Builds (IsOnly (.node .attributeList))
      (node .attributeList (seq [bump, insideBrackets 0, bump])) := by
    have hinside : Plain (seq [bump, insideBrackets 0, bump]) :=
      .seq ⟨.bump, plain_insideBrackets 0, .bump⟩
    exact hinside.free_builds rfl
  have hadditive : Additive (Labelled IsAttributes) := by
    refine ⟨⟨trivial, 0, rfl⟩, fun {ts us} hts hus => ?_⟩
    obtain ⟨hshaped, n, hn⟩ := hts
    obtain ⟨hshaped', m, hm⟩ := hus
    refine ⟨shapedOf_append.mpr ⟨hshaped, hshaped'⟩, n + m, ?_⟩
    rw [List.map_append, hn, hm, List.replicate_append_replicate]
  exact hadditive.many fun s _ => (hlist s).mono fun _ hls => ⟨1, hls⟩

/-- Lexemes that are read one by one make tokens. -/
theorem builds_words {p : Production} (h : Builds IsTokens p) :
    Builds (IsOnly (.node .modifierList)) (node .modifierList p) :=
  h.node fun _ hls => ⟨hls, nofun⟩

theorem builds_modifiers : Builds (IsOnly (.node .modifierList)) modifiers :=
  builds_words (.words fun s _ => Builds.bump s)

theorem plain_parameterModifiers : Plain (node .modifierList (many atParameterModifier bump)) :=
  (builds_words (.words fun s _ => Builds.bump s)).plain

theorem buildsAt_formatClause {s : List Lexeme} (hs : kindAhead 0 s = .colon) :
    BuildsAt (IsOnly (.node .interpolationFormatClause))
      (node .interpolationFormatClause (seq [bump, eat .interpolatedFormatText])) s := by
  have htext : Builds (fun ls => ls = [] ∨ ls = [.token .interpolatedFormatText])
      (eat .interpolatedFormatText) := .eat nofun
  refine ((BuildsAt.bump hs nofun).seq (.cons htext .nil)).node ?_
  rintro _ ⟨_, _, rfl, rfl, text, _, rfl, htext, rfl⟩
  rw [List.append_nil]
  exact ⟨htext.imp (congrArg (List.cons _)) (congrArg (List.cons _)), nofun⟩

section
variable {g : Inner} (hg : g.Shaped) {s : List Lexeme}
include hg

/-- Elements in braces start with the brace. -/
theorem builds_elements : Builds (fun ls => ∃ rest, ls = .token .openBrace :: rest) (elements g) := by
  have helement : Plain (look fun s => if atKind .openBrace s then g.initializer else g.expression) :=
    .look fun s => .ite (fun _ => hg.initializer s) fun _ => hg.expression.plain s
  have hopen : Builds (IsOnly (.token .openBrace)) (expect .openBrace "`\x7b`") := .expect nofun
  have helements : Builds (Concat [IsOnly (.token .openBrace), fun _ => True, fun _ => True])
      (elements g) :=
    .seq (.cons hopen (.cons (Plain.items helement).builds (.cons Plain.expect.builds .nil)))
  refine helements.mono ?_
  rintro _ ⟨_, b, rfl, rfl, -⟩
  exact ⟨b, rfl⟩

theorem plain_initializer : Plain (initializer g) := by
  refine ((builds_elements hg).node ?_).plain
  rintro _ ⟨rest, rfl⟩
  exact ⟨⟨nofun, nofun⟩, fun _ => solid_of_token nofun⟩

theorem plain_equalsValue : Plain (equalsValue g) := by
  refine .free_node (.seq ⟨.bump, .look fun s => ?_⟩) rfl
  exact .ite (fun _ => plain_initializer hg s) fun _ => hg.expression.plain s

theorem plain_defaultValue : Plain (whenever (atKind .eq) (equalsValue g)) :=
  .whenever fun s _ => plain_equalsValue hg s

theorem plain_parameter : Plain (parameter g) :=
  .free_node (.seq ⟨builds_attributes.plain, plain_parameterModifiers, plain_type hg, .expect,
    plain_defaultValue hg⟩) rfl

omit hg in
theorem plain_listUpTo {close : TokenKind} {what : String} {item : Production}
    (hitem : Plain item) : Plain (listUpTo close what item) :=
  .seq ⟨.whenever fun s _ => hitem.separated s, .expect⟩

theorem plain_parameterList : Plain (parameterList g) :=
  .free_node (.seq ⟨.expect, plain_listUpTo (plain_parameter hg)⟩) rfl

theorem plain_bracketedParameterList : Plain (bracketedParameterList g) :=
  .free_node (.seq ⟨.bump, .separated (plain_parameter hg), .expect⟩) rfl

theorem plain_lambdaParameterList : Plain (lambdaParameterList g) := by
  have hbare : Plain (node .parameter bump) := .free_node .bump rfl
  have hitem : Plain (look fun s =>
      if atKind .identifier s && (kindAhead 1 s == .comma || kindAhead 1 s == .closeParen) then
        node .parameter bump
      else parameter g) :=
    .look fun s => .ite (fun _ => hbare s) fun _ => plain_parameter hg s
  exact .free_node (.seq ⟨.bump, plain_listUpTo hitem⟩) rfl

/-! ## Arguments -/

theorem builds_argument (close : TokenKind) :
    Builds (IsOnly (.node .argument)) (argument g close) := by
  have hname : Plain (node .nameColon (seq [bump, bump])) := .free_node (.seq ⟨.bump, .bump⟩) rfl
  have hdeclares : Plain (node .declarationExpression (seq [type g, bump])) :=
    .free_node (.seq ⟨plain_type hg, .bump⟩) rfl
  have hvalue : Plain (look fun s => if declaresVariable g close s then
      node .declarationExpression (seq [type g, bump]) else g.expression) :=
    .look fun s => .ite (fun _ => hdeclares s) fun _ => hg.expression.plain s
  have hbyReference : Plain (seq [bump, look fun s => if declaresVariable g close s then
      node .declarationExpression (seq [type g, bump]) else g.expression]) := .seq ⟨.bump, hvalue⟩
  refine Plain.free_builds (.seq ⟨.whenever fun s _ => hname s, .look fun s => ?_⟩) rfl
  exact .ite (fun _ => hbyReference s) fun _ => hg.expression.plain s

omit hg in
/-- Further items come with a comma in front of each. -/
theorem builds_separated {l : Label} {item : Production} (hitem : Builds (IsOnly l) item) :
    Builds (fun ls => ∃ n, ls = l :: (List.replicate n [.token .comma, l]).flatten)
      (separated item) := by
  let IsMore (ls : List Label) : Prop := ∃ n, ls = (List.replicate n [.token .comma, l]).flatten
  have hadditive : Additive (Labelled IsMore) := by
    refine ⟨⟨trivial, 0, rfl⟩, fun {ts us} hts hus => ?_⟩
    obtain ⟨hshaped, n, hn⟩ := hts
    obtain ⟨hshaped', m, hm⟩ := hus
    refine ⟨shapedOf_append.mpr ⟨hshaped, hshaped'⟩, n + m, ?_⟩
    rw [List.map_append, hn, hm, ← List.flatten_append, List.replicate_append_replicate]
  have hmore : Builds IsMore (many (atKind .comma) (seq [bump, item])) := by
    refine hadditive.many fun s hs => ?_
    have hround : BuildsAt (Concat [IsOnly (.token .comma), IsOnly l]) (seq [bump, item]) s :=
      (BuildsAt.bump (beq_iff_eq.mp hs) nofun).seq (.cons hitem .nil)
    refine hround.mono ?_
    rintro _ ⟨_, _, rfl, rfl, _, _, rfl, rfl, rfl⟩
    exact ⟨1, rfl⟩
  have hseq : Builds (Concat [IsOnly l, IsMore])
      (seq [item, many (atKind .comma) (seq [bump, item])]) := .seq (.cons hitem (.cons hmore .nil))
  refine hseq.mono ?_
  rintro _ ⟨_, _, rfl, rfl, _, _, rfl, ⟨n, rfl⟩, rfl⟩
  exact ⟨n, by rw [List.append_nil]; rfl⟩

theorem builds_argumentList : Builds (IsOnly (.node .argumentList)) (argumentList g) := by
  have hopen : Builds (IsOnly (.token .openParen)) (expect .openParen "`(`") := .expect nofun
  have hclose : Builds (IsOnly (.token .closeParen)) (expect .closeParen "`)`") := .expect nofun
  have harguments : Builds (fun ls => ∃ count, ls = argumentLabels count)
      (whenever (fun s => !atKind .closeParen s) (separated (argument g .closeParen))) := by
    intro s
    refine .look (.ite (fun _ => ?_) fun _ => .keep ⟨trivial, 0, rfl⟩)
    refine (builds_separated (builds_argument hg .closeParen) s).mono ?_
    rintro _ ⟨count, rfl⟩
    exact ⟨count + 1, (argumentLabels_succ count).symm⟩
  have hlist : Builds (Concat [fun ls => ∃ count, ls = argumentLabels count,
      IsOnly (.token .closeParen)]) (listUpTo .closeParen "`)`" (argument g .closeParen)) :=
    .seq (.cons harguments (.cons hclose .nil))
  have hseq : Builds (Concat [IsOnly (.token .openParen), Concat [fun ls => ∃ count,
      ls = argumentLabels count, IsOnly (.token .closeParen)]])
      (seq [expect .openParen "`(`", listUpTo .closeParen "`)`" (argument g .closeParen)]) :=
    .seq (.cons hopen (.cons hlist .nil))
  refine hseq.node ?_
  rintro _ ⟨_, _, rfl, rfl, _, _, rfl, ⟨_, _, rfl, ⟨count, rfl⟩, _, _, rfl, rfl, rfl⟩, rfl⟩
  rw [List.append_nil, List.append_nil]
  exact ⟨⟨count, rfl⟩, fun _ => solid_of_token nofun⟩

theorem plain_bracketedArgumentList : Plain (bracketedArgumentList g) :=
  .free_node (.seq ⟨.bump, plain_listUpTo (builds_argument hg _).plain⟩) rfl

/-! ## Primary expressions -/

theorem plain_lengths : Plain (lengths g) := by
  have hlength : Plain (look fun s => if atKind .comma s then bump else g.expression) :=
    .look fun s => .ite (fun _ => Plain.bump s) fun _ => hg.expression.plain s
  have hgoesOn : Plain (look fun s => if atEnd s then fail "`]`" else empty) :=
    .look fun s => .ite (fun _ => Plain.fail s) fun _ => Plain.empty s
  have hpart : Plain (seq [look fun s => if atKind .comma s then bump else g.expression,
      look fun s => if atEnd s then fail "`]`" else empty]) := .seq ⟨hlength, hgoesOn⟩
  exact .free_node (.seq ⟨.bump, .many fun s _ => hpart s, .bump⟩) rfl

theorem plain_creationElements : Plain (whenever (atKind .openBrace) (elements g)) :=
  .whenever fun s _ => (builds_elements hg).plain s

omit hg in
/-- A creation is an expression because the word `new` is in it. -/
theorem buildsAt_new {kind : NodeKind} {new : List Tree} {ps : List Production}
    (hnew : Labelled (IsOnly (.token (.keyword .kwNew))) new) (hps : PlainAt (seq ps) s)
    (hkind : kind.isExpression = true) (hform : ∀ ls, Form kind ls) :
    BuildsAt IsOperand (node kind (seq (keep new :: ps))) s := by
  refine ((hps.builds.keep_seq hnew).node ?_).operand hkind
  rintro _ ⟨_, _, rfl, rfl, -⟩
  exact ⟨hform _, fun _ => solid_of_token nofun⟩

theorem buildsAt_creation (hs : kindAhead 0 s = .keyword .kwNew) :
    BuildsAt IsOperand (creation g) s := by
  refine (BuildsAt.bump hs nofun).extend fun new s hnew => .look ?_
  refine .ite (fun _ => ?_) fun _ => .ite (fun _ => ?_) fun _ => .ite (fun _ => ?_) fun _ => ?_
  · have htail : Plain (seq [argumentList g, whenever (atKind .openBrace) (elements g)]) :=
      .seq ⟨(builds_argumentList hg).plain, plain_creationElements hg⟩
    exact buildsAt_new hnew (htail s) rfl fun _ => ⟨nofun, nofun⟩
  · have htail : Plain (seq [elements g]) := .seq (builds_elements hg).plain
    exact buildsAt_new hnew (htail s) rfl fun _ => ⟨nofun, nofun⟩
  · have hrank : Plain (node .arrayRankSpecifier (seq [bump, expect .closeBracket "`]`"])) :=
      .free_node (.seq ⟨.bump, .expect⟩) rfl
    have htail : Plain (seq [node .arrayRankSpecifier (seq [bump, expect .closeBracket "`]`"]),
        elements g]) := .seq ⟨hrank, (builds_elements hg).plain⟩
    exact buildsAt_new hnew (htail s) rfl fun _ => ⟨nofun, nofun⟩
  refine MakesAt.extend (plainAt_typeHead hg) fun element s helement => .look (.ite (fun _ => ?_) fun _ => ?_)
  · have hlengths : Plain (many (atKind .openBracket) (lengths g)) :=
      .many fun s _ => plain_lengths hg s
    have hranks : PlainAt (seq [keep element, many (atKind .openBracket) (lengths g)]) s :=
      .keep_seq helement ((hlengths s).seq trivial)
    have harray : PlainAt
        (node .arrayType (seq [keep element, many (atKind .openBracket) (lengths g)])) s :=
      hranks.free_node rfl
    exact buildsAt_new hnew (harray.seq (plain_creationElements hg)) rfl fun _ => ⟨nofun, nofun⟩
  · have harguments : Plain (whenever (atKind .openParen) (argumentList g)) :=
      .whenever fun s _ => (builds_argumentList hg).plain s
    have htail : PlainAt (seq [keep element, whenever (atKind .openParen) (argumentList g),
        whenever (atKind .openBrace) (elements g)]) s :=
      .keep_seq helement ((harguments s).seq (plain_creationElements hg))
    exact buildsAt_new hnew htail rfl fun _ => ⟨nofun, nofun⟩

theorem buildsAt_interpolation (hs : kindAhead 0 s = .openBrace) :
    BuildsAt (IsOnly (.node .interpolation)) (interpolation g) s := by
  have halignment : Plain (node .interpolationAlignmentClause (seq [bump, g.expression])) :=
    .free_node (.seq ⟨.bump, hg.expression.plain⟩) rfl
  have halignments : Plain (whenever (atKind .comma)
      (node .interpolationAlignmentClause (seq [bump, g.expression]))) :=
    .whenever fun s _ => halignment s
  have hformats : Plain (whenever (atKind .colon)
      (node .interpolationFormatClause (seq [bump, eat .interpolatedFormatText]))) :=
    .whenever fun s hcolon => (buildsAt_formatClause (beq_iff_eq.mp hcolon)).plain
  have hclose : Builds (IsOnly (.token .closeBrace)) (expect .closeBrace "`\x7d`") := .expect nofun
  refine ((BuildsAt.bump hs nofun).seq (.cons hg.expression
    (.cons halignments.builds (.cons hformats.builds (.cons hclose .nil))))).node ?_
  rintro _ ⟨_, _, rfl, rfl, _, _, rfl, ⟨e, he, rfl⟩, a, _, rfl, -, b, _, rfl, -, _, _, rfl, rfl, rfl⟩
  exact ⟨⟨e, a ++ b, he, by simp⟩, nofun⟩

theorem buildsAt_interpolatedString (hs : kindAhead 0 s = .interpolatedStringStart) :
    BuildsAt (IsOnly (.node .interpolatedStringExpression)) (interpolatedString g) s := by
  have htext : Plain (node .interpolatedStringText bump) := .free_node .bump rfl
  have hparts : Plain (many (fun s => atKind .interpolatedStringText s || atKind .openBrace s)
      (look fun s => if atKind .interpolatedStringText s then node .interpolatedStringText bump
        else interpolation g)) := by
    refine .many fun s hpart => MakesAt.look (MakesAt.ite (fun _ => htext s) fun hother => ?_)
    rw [hother, Bool.false_or] at hpart
    exact (buildsAt_interpolation hg (beq_iff_eq.mp hpart)).plain
  have hend : Builds (IsOnly (.token .interpolatedStringEnd))
      (expect .interpolatedStringEnd "interpolated string content") := .expect nofun
  refine ((BuildsAt.bump hs nofun).seq (.cons hparts.builds (.cons hend .nil))).node ?_
  rintro _ ⟨_, _, rfl, rfl, a, _, rfl, -, _, _, rfl, rfl, rfl⟩
  exact ⟨⟨a, rfl⟩, fun _ => solid_of_token nofun⟩

theorem buildsAt_typeOperand {word : Keyword} {kind : NodeKind}
    (hs : kindAhead 0 s = .keyword word) (hkind : kind.isExpression = true)
    (hform : ∀ ls, IsTypeOperand word ls → Form kind ls) :
    BuildsAt IsOperand (typeOperand g kind) s := by
  have hopen : Builds (IsOnly (.token .openParen)) (expect .openParen "`(`") := .expect nofun
  have hclose : Builds (IsOnly (.token .closeParen)) (expect .closeParen "`)`") := .expect nofun
  refine (((BuildsAt.bump hs nofun).seq
    (.cons hopen (.cons (builds_type hg) (.cons hclose .nil)))).node ?_).operand hkind
  rintro _ ⟨_, _, rfl, rfl, _, _, rfl, rfl, _, _, rfl, ⟨t, ht, rfl⟩, _, _, rfl, rfl, rfl⟩
  exact ⟨hform _ ⟨t, ht, rfl⟩, fun _ => solid_of_token nofun⟩

theorem buildsAt_parenthesized (hs : kindAhead 0 s = .openParen) :
    BuildsAt (IsOnly (.node .parenthesizedExpression))
      (node .parenthesizedExpression (seq [bump, g.expression, expect .closeParen "`)`"])) s := by
  have hclose : Builds (IsOnly (.token .closeParen)) (expect .closeParen "`)`") := .expect nofun
  refine ((BuildsAt.bump hs nofun).seq (.cons hg.expression (.cons hclose .nil))).node ?_
  rintro _ ⟨_, _, rfl, rfl, _, _, rfl, ⟨e, he, rfl⟩, _, _, rfl, rfl, rfl⟩
  exact ⟨⟨e, he, rfl⟩, fun _ => solid_of_token nofun⟩

theorem builds_primary : Builds IsOperand (primary g) := by
  intro s
  refine .look ?_
  have hbump {k : TokenKind} {kind : NodeKind} (hs : kindAhead 0 s = k) (hk : k ≠ .endOfFile)
      (hkind : kind.isExpression = true) (hform : Form kind [.token k]) :
      BuildsAt IsOperand (node kind bump) s := (BuildsAt.bump_node hs hk hform).operand hkind
  split
  case h_4 hs => exact (buildsAt_interpolatedString hg hs).operand rfl
  case h_6 hs => exact (buildsAt_parenthesized hg hs).operand rfl
  case h_11 hs => exact buildsAt_creation hg hs
  case h_13 hs =>
    refine .ite (fun _ => ?_) fun _ => hbump hs nofun rfl ⟨_, rfl⟩
    exact buildsAt_typeOperand hg hs rfl fun _ hls => hls
  case h_14 hs => exact buildsAt_typeOperand hg hs rfl fun _ hls => hls
  case h_15 hs => exact .token_node hs nofun hg.expression.plain rfl fun _ => ⟨nofun, nofun⟩
  case h_16 k hs =>
    refine .ite (fun _ => ?_) fun _ => Builds.fail s
    exact (buildsAt_predefinedType (by rw [hs]; exact nofun)).operand rfl
  case h_17 => exact Builds.fail s
  case h_5 hs => exact hbump hs nofun rfl ⟨nofun, nofun⟩
  case h_10 hs => exact hbump hs nofun rfl ⟨nofun, nofun⟩
  case h_12 hs => exact hbump hs nofun rfl ⟨nofun, nofun⟩
  all_goals
    rename_i hs
    exact hbump hs nofun rfl ⟨_, rfl⟩

theorem buildsAt_afterOperand {held : List Tree} {kind : NodeKind} {tail : Production}
    (hheld : Labelled IsOperand held) (hsuffix : postfixSuffix g s = some (kind, tail)) :
    BuildsAt IsOperand (node kind (seq [keep held, tail])) s := by
  have hmember {k : TokenKind} (hs : kindAhead 0 s = k) (hk : k ≠ .endOfFile) :
      BuildsAt (Concat [IsOnly (.token k), IsOnly (.node .identifierName)])
        (seq [bump, node .identifierName (expect .identifier "member name")]) s :=
    (BuildsAt.bump hs hk).seq (.cons builds_identifierName .nil)
  have hmemberForm {k : TokenKind} (e : NodeKind) (ls : List Label) (he : e.isExpression = true)
      (hls : Concat [IsOnly (.token k), IsOnly (.node .identifierName)] ls) :
      IsMember k (.node e :: ls) := by
    obtain ⟨_, _, rfl, rfl, _, _, rfl, rfl, rfl⟩ := hls
    exact ⟨e, he, rfl⟩
  unfold postfixSuffix at hsuffix
  dsimp only at hsuffix
  split at hsuffix
  case h_8 => cases hsuffix
  all_goals
    obtain ⟨rfl, rfl⟩ := Prod.mk.inj (Option.some.inj hsuffix)
    rename_i hs
  case h_1 => exact .suffix_node hheld (hmember hs nofun) rfl hmemberForm
  case h_2 => exact .suffix_node hheld (hmember hs nofun) rfl hmemberForm
  case h_3 =>
    refine .suffix_node hheld (builds_argumentList hg s) rfl ?_
    rintro e _ he rfl
    exact ⟨e, he, rfl⟩
  case h_4 =>
    exact .suffix_node hheld (plain_bracketedArgumentList hg s).builds rfl
      fun _ _ _ _ => ⟨nofun, nofun⟩
  all_goals
    exact .suffix_node hheld (Plain.bump s).builds rfl fun _ _ _ _ => ⟨nofun, nofun⟩

/-! ## Operators -/

theorem builds_operand : Builds IsOperand (chain (primary g) (postfixSuffix g)) :=
  .chain (builds_primary hg) fun _ _ _ _ hheld hsuffix => buildsAt_afterOperand hg hheld hsuffix

theorem buildsAt_cast (hs : kindAhead 0 s = .openParen) :
    BuildsAt IsOperand
      (node .castExpression (seq [bump, type g, expect .closeParen "`)`", g.unary])) s := by
  have hclose : Builds (IsOnly (.token .closeParen)) (expect .closeParen "`)`") := .expect nofun
  refine (((BuildsAt.bump hs nofun).seq
    (.cons (builds_type hg) (.cons hclose (.cons hg.unary .nil)))).node ?_).operand rfl
  rintro _ ⟨_, _, rfl, rfl, _, _, rfl, ⟨t, ht, rfl⟩, _, _, rfl, rfl, _, _, rfl, ⟨e, he, rfl⟩, rfl⟩
  exact ⟨⟨t, e, ht, he, rfl⟩, fun _ => solid_of_token nofun⟩

theorem builds_unary : Builds IsOperand (unary g) := by
  intro s
  refine .look ?_
  split
  case h_7 hs =>
    exact .ite (fun _ => buildsAt_cast hg hs) fun _ => builds_operand hg s
  case h_8 => exact builds_operand hg s
  all_goals
    rename_i hs
    exact .token_node hs nofun hg.unary.plain rfl fun ls => ⟨_, ls, rfl⟩

theorem plain_whenClause : Plain (whenClause g) := by
  have hclause : Plain (node .whenClause (seq [bump, g.expression])) :=
    .free_node (.seq ⟨.bump, hg.expression.plain⟩) rfl
  exact .whenever fun s _ => hclause s

theorem plain_switchArms : Plain (items (before .closeBrace) (node .switchExpressionArm
    (seq [g.pattern, whenClause g, expect .arrow "`=>`", g.expression]))) :=
  .items (.free_node (.seq ⟨hg.pattern, plain_whenClause hg, .expect, hg.expression.plain⟩) rfl)

theorem builds_switched : Builds IsOperand (chain (unary g) (switchSuffix g)) := by
  refine .chain (builds_unary hg) fun held s kind tail hheld hsuffix => ?_
  obtain ⟨-, rfl, rfl⟩ := suffix_of_ite hsuffix
  have harms : Plain (seq [bump, bump, items (before .closeBrace) (node .switchExpressionArm
      (seq [g.pattern, whenClause g, expect .arrow "`=>`", g.expression])),
      expect .closeBrace "`\x7d`"]) :=
    .seq ⟨.bump, .bump, plain_switchArms hg, .expect⟩
  exact .suffix_node hheld (harms s).builds rfl fun _ _ _ _ => ⟨nofun, nofun⟩

omit hg in
/-- Two operands around a sign make an operation, whatever the operator. -/
theorem buildsAt_operation {held : List Tree} {kind : NodeKind} {signs : List TokenKind}
    {sign right : Production} (hheld : Labelled IsOperand held)
    (hsign : BuildsAt (fun ls => ls = signs.map .token) sign s) (hsigns : signs ≠ [])
    (hright : Builds IsOperand right) (hkind : kind.isBinary = true) :
    BuildsAt IsOperand (node kind (seq [keep held, seq [sign, right]])) s := by
  refine .suffix_node hheld (hsign.seq (.cons hright .nil)) (NodeKind.isExpression_of_isBinary hkind) ?_
  rintro e _ he ⟨_, _, rfl, rfl, _, _, rfl, ⟨f, hf, rfl⟩, rfl⟩
  obtain ⟨k, signs, rfl⟩ := List.exists_cons_of_ne_nil hsigns
  exact form_of_isBinary hkind ⟨e, k, signs, f, he, hf, rfl⟩

omit hg in
theorem buildsAt_sign (hs : kindAhead 0 s ≠ .endOfFile) :
    BuildsAt (fun ls => ls = [kindAhead 0 s].map .token) bump s :=
  .bump rfl hs

omit hg in
theorem kindAhead_of_atRightShift (h : atRightShift s = true) :
    kindAhead 0 s = .gt ∧ kindAhead 0 (s.drop 1) = .gt := by
  cases s with
  | nil => cases h
  | cons a s =>
    cases s with
    | nil => cases h
    | cons b s =>
      simp only [atRightShift, Bool.and_eq_true, beq_iff_eq] at h
      exact ⟨h.1.1, h.1.2⟩

omit hg in
theorem buildsAt_rightShift (h : atRightShift s = true) :
    BuildsAt (fun ls => ls = [.gt, .gt].map Label.token) (seq [bump, bump]) s := by
  obtain ⟨hfirst, hsecond⟩ := kindAhead_of_atRightShift h
  have hnext : BuildsAt (Concat [IsOnly (.token .gt)]) (seq [bump]) (s.drop 1) :=
    (BuildsAt.bump hsecond nofun).seq .nil
  refine (BuildsAt.seq_second (BuildsAt.bump hfirst nofun) (fun ts rest hok => ?_) hnext).mono ?_
  · exact (bump_eq (readable_of_kind hfirst nofun) hok).1
  · rintro _ ⟨_, _, rfl, rfl, _, _, rfl, rfl, rfl⟩
    rfl

omit hg in
theorem isBinary_of_precedence {kind : NodeKind} {n : Nat} (h : kind.precedence? = some n) :
    kind.isBinary = true := by
  cases kind
  all_goals first
    | (cases h; done)
    | rfl

omit hg in
theorem isBinary_of_isAssignment {kind : NodeKind} (h : kind.isAssignment = true) :
    kind.isBinary = true := by
  cases kind
  all_goals first
    | (cases h; done)
    | rfl

omit hg in
theorem kindAhead_of_operator {kind : NodeKind} (h : NodeKind.ofOperator? (kindAhead 0 s) = some kind) :
    kindAhead 0 s ≠ .endOfFile := by
  intro hend
  rw [hend] at h
  cases h

theorem buildsAt_binarySuffix {held : List Tree} {least : Nat} {kind : NodeKind} {tail : Production}
    (hheld : Labelled IsOperand held) (hsuffix : binarySuffix g least s = some (kind, tail)) :
    BuildsAt IsOperand (node kind (seq [keep held, tail])) s := by
  have his : Plain (seq [bump, g.pattern]) := .seq ⟨.bump, hg.pattern⟩
  obtain ⟨p, hnext, -⟩ := binarySuffix_eq_some.mp hsuffix
  cases hnext with
  | typeTest has =>
    have htest : BuildsAt (Concat [IsOnly (.token (.keyword .kwAs)), IsType]) (seq [bump, type g]) s :=
      (BuildsAt.bump (beq_iff_eq.mp has) nofun).seq (.cons (builds_type hg) .nil)
    refine .suffix_node hheld htest rfl ?_
    rintro e _ he ⟨_, _, rfl, rfl, _, _, rfl, ⟨t, ht, rfl⟩, rfl⟩
    exact ⟨e, t, he, ht, rfl⟩
  | patternTest _ _ => exact .suffix_node hheld (his s).builds rfl fun _ _ _ _ => ⟨nofun, nofun⟩
  | rightShift _ hshift =>
    exact buildsAt_operation hheld (buildsAt_rightShift hshift) nofun (hg.binary _) rfl
  | operator _ _ hop hp =>
    exact buildsAt_operation hheld (buildsAt_sign (kindAhead_of_operator hop)) nofun (hg.binary _)
      (isBinary_of_precedence hp)

theorem builds_binary (least : Nat) : Builds IsOperand (binary g least) :=
  .chain (builds_switched hg) fun _ _ _ _ hheld hsuffix => buildsAt_binarySuffix hg hheld hsuffix

theorem builds_coalesce : Builds IsOperand (coalesce g) := by
  intro s
  refine (builds_binary hg 1 s).extend fun held s hheld => .suffixed hheld fun kind tail hsuffix => ?_
  obtain ⟨hs, rfl, rfl⟩ := suffix_of_ite hsuffix
  have hs : kindAhead 0 s = .questionQuestion := beq_iff_eq.mp hs
  exact buildsAt_operation hheld (buildsAt_sign (by rw [hs]; exact nofun)) nofun hg.coalesce rfl

theorem builds_conditional : Builds IsOperand (conditional g) := by
  intro s
  refine (builds_coalesce hg s).extend fun held s hheld => .suffixed hheld fun kind tail hsuffix => ?_
  obtain ⟨-, rfl, rfl⟩ := suffix_of_ite hsuffix
  have hcases : Plain (seq [bump, g.expression, expect .colon "`:`", g.expression]) :=
    .seq ⟨.bump, hg.expression.plain, .expect, hg.expression.plain⟩
  exact .suffix_node hheld (hcases s).builds rfl fun _ _ _ _ => ⟨nofun, nofun⟩

/-! ## Lambdas and assignments -/

theorem plain_lambdaBody : Plain (lambdaBody g) :=
  .look fun s => .ite (fun _ => hg.block s) fun _ => hg.expression.plain s

theorem builds_expression : Builds IsOperand (expression g) := by
  intro s
  refine .look (.ite (fun hsimple => ?_) fun _ => .ite (fun _ => ?_) fun _ => ?_)
  · have hname : kindAhead 0 s = .identifier := beq_iff_eq.mp (Bool.and_eq_true_iff.mp hsimple).1
    have harrow : kindAhead 1 s = .arrow := beq_iff_eq.mp (Bool.and_eq_true_iff.mp hsimple).2
    have hparameter : BuildsAt (IsOnly (.node .parameter)) (node .parameter bump) s :=
      (Plain.bump s).free_builds rfl
    have hbody : BuildsAt (Concat [IsOnly (.token .arrow), fun _ => True])
        (seq [bump, lambdaBody g]) (s.drop 1) :=
      (BuildsAt.bump (kindAhead_drop.trans harrow) nofun).seq
        (.cons (plain_lambdaBody hg).builds .nil)
    have hlambda := hparameter.seq_second (fun ts rest hok => ?_) hbody
    · refine (hlambda.node ?_).operand rfl
      rintro _ ⟨_, _, rfl, rfl, _, b, rfl, rfl, -⟩
      exact ⟨⟨nofun, nofun⟩, fun _ => ⟨.token .arrow, by simp, rfl⟩⟩
    · obtain ⟨us, hus, rfl⟩ := node_eq_ok hok
      exact (bump_eq (readable_of_kind hname nofun) hus).1
  · have harrow : Builds (IsOnly (.token .arrow)) (expect .arrow "`=>`") := .expect nofun
    have hlambda : Builds (Concat [fun _ => True, IsOnly (.token .arrow), fun _ => True])
        (seq [lambdaParameterList g, expect .arrow "`=>`", lambdaBody g]) :=
      .seq (.cons (plain_lambdaParameterList hg).builds
        (.cons harrow (.cons (plain_lambdaBody hg).builds .nil)))
    refine ((hlambda s).node ?_).operand rfl
    rintro _ ⟨a, _, rfl, -, _, b, rfl, rfl, -⟩
    exact ⟨⟨nofun, nofun⟩, fun _ => ⟨.token .arrow, by simp, rfl⟩⟩
  · refine (builds_conditional hg s).extend fun held s hheld =>
      .suffixed hheld fun kind tail hsuffix => ?_
    obtain ⟨hop, hassignment, rfl⟩ := assignmentSuffix_eq_some hsuffix
    exact buildsAt_operation hheld (buildsAt_sign (kindAhead_of_operator hop)) nofun hg.expression
      (isBinary_of_isAssignment hassignment)

/-! ## Patterns -/

theorem plain_negatedPattern : Plain (negatedPattern g) := by
  have hnot : Plain (node .notPattern (seq [bump, g.negatedPattern])) :=
    .free_node (.seq ⟨.bump, hg.negatedPattern⟩) rfl
  have hrelational : Plain (node .relationalPattern (seq [bump, binary g shift])) :=
    .free_node (.seq ⟨.bump, (builds_binary hg shift).plain⟩) rfl
  have hdeclaration : Plain (node .declarationPattern (seq [type g, bump])) :=
    .free_node (.seq ⟨plain_type hg, .bump⟩) rfl
  have htype : Plain (node .typePattern (type g)) := .free_node (plain_type hg) rfl
  have hconstant : Plain (node .constantPattern (binary g shift)) :=
    .free_node (builds_binary hg shift).plain rfl
  exact .look fun s => .ite (fun _ => hnot s) fun _ => .ite (fun _ => hrelational s) fun _ =>
    .ite (fun _ => hdeclaration s) fun _ => .ite (fun _ => htype s) fun _ => hconstant s

omit hg in
/-- Patterns with a word between them. -/
theorem plain_joinedPatterns {p q : Production} {word : String} {kind : NodeKind} (hp : Plain p)
    (hq : Plain q) (hkind : kind.isFree = true) :
    Plain (chain p fun s => if atWord word s then some (kind, seq [bump, q]) else none) := by
  have htail : Plain (seq [bump, q]) := .seq ⟨.bump, hq⟩
  refine Makes.chain hp fun held s kind tail hheld hsuffix => ?_
  obtain ⟨-, rfl, rfl⟩ := suffix_of_ite hsuffix
  have hseq : PlainAt (seq [keep held, seq [bump, q]]) s :=
    .keep_seq hheld ((htail s).seq trivial)
  exact hseq.free_node hkind

theorem plain_pattern : Plain (pattern g) := by
  have hconjunction : Plain (chain (negatedPattern g) fun s =>
      if atWord "and" s then some (.andPattern, seq [bump, negatedPattern g]) else none) :=
    plain_joinedPatterns (plain_negatedPattern hg) (plain_negatedPattern hg) rfl
  exact plain_joinedPatterns hconjunction hconjunction rfl

end

end Grammar

end SharpLint
