import SharpLint.Proofs.Grammar.CompilationUnit
import SharpLint.Proofs.Grammar.ShapeExpression
import SharpLint.Proofs.Lexeme.Spelled

/-!
# Source files have their shapes

Statements are plain. Of the declarations, types and namespaces have forms of their own: both have
their names where the views look for them. So every level of the grammar builds shaped trees
(`shaped_level`), and the tree of a text is sound (`sound_parse`).
-/

namespace SharpLint

open Production SharpLint.Tree

namespace Grammar

/-! ## Statements -/

theorem plain_semicolon : Plain semicolon := .expect

section
variable {g : Inner} (hg : g.Shaped) {s : List Lexeme}
include hg

theorem plain_expression : Plain (expression g) := (builds_expression hg).plain

theorem plain_declarators : Plain (declarators g) :=
  .separated (.free_node (.seq ⟨.expect, plain_defaultValue hg⟩) rfl)

theorem plain_variableDeclaration : Plain (variableDeclaration g) :=
  .free_node (.seq ⟨plain_type hg, plain_declarators hg⟩) rfl

theorem plain_block : Plain (block g) :=
  .free_node (.seq ⟨.expect, .many fun s _ => hg.statement s, .expect⟩) rfl

theorem plain_condition : Plain (condition g) := .seq ⟨.expect, plain_expression hg, .expect⟩

theorem plain_ifStatement : Plain (ifStatement g) := by
  have helse : Plain (node .elseClause (seq [bump, g.statement])) :=
    .free_node (.seq ⟨.bump, hg.statement⟩) rfl
  exact .free_node (.seq ⟨.bump, plain_condition hg, hg.statement, .whenever fun s _ => helse s⟩) rfl

theorem plain_forStatement : Plain (forStatement g) := by
  have hstart : Plain (look fun s =>
      if atKind .semicolon s then empty
      else if looksLikeVariables g s then variableDeclaration g
      else separated (expression g)) :=
    .look fun s => .ite (fun _ => Plain.empty s) fun _ =>
      .ite (fun _ => plain_variableDeclaration hg s) fun _ => (plain_expression hg).separated s
  exact .free_node (.seq ⟨.bump, .expect, hstart, plain_semicolon,
    .whenever fun s _ => plain_expression hg s, plain_semicolon,
    .whenever fun s _ => (plain_expression hg).separated s, .expect, hg.statement⟩) rfl

theorem plain_foreachStatement : Plain (foreachStatement g) :=
  .free_node (.seq ⟨.bump, .expect, plain_type hg, .expect, .expect, plain_expression hg, .expect,
    hg.statement⟩) rfl

theorem plain_switchLabel : Plain (switchLabel g) := by
  have hdefault : Plain (node .defaultSwitchLabel (seq [bump, bump])) :=
    .free_node (.seq ⟨.bump, .bump⟩) rfl
  have hcase : Plain (node .caseSwitchLabel
      (seq [bump, pattern g, whenClause g, expect .colon "`:`"])) :=
    .free_node (.seq ⟨.bump, plain_pattern hg, plain_whenClause hg, .expect⟩) rfl
  exact .look fun s => .ite (fun _ => hdefault s) fun _ => hcase s

theorem plain_switchSection : Plain (switchSection g) := by
  have hsection : Plain (node .switchSection (seq [many atSwitchLabel (switchLabel g),
      many (fun s => before .closeBrace s && !atSwitchLabel s) g.statement])) :=
    .free_node (.seq ⟨.many fun s _ => plain_switchLabel hg s, .many fun s _ => hg.statement s⟩) rfl
  exact .look fun s => .ite (fun _ => hsection s) fun _ => Plain.fail s

theorem plain_switchStatement : Plain (switchStatement g) :=
  .free_node (.seq ⟨.bump, plain_condition hg, .expect, .many fun s _ => plain_switchSection hg s,
    .expect⟩) rfl

theorem plain_catchClause : Plain (catchClause g) := by
  have hdeclaration : Plain (node .catchDeclaration
      (seq [bump, type g, eat .identifier, expect .closeParen "`)`"])) :=
    .free_node (.seq ⟨.bump, plain_type hg, .eat, .expect⟩) rfl
  exact .free_node (.seq ⟨.bump, .whenever fun s _ => hdeclaration s, plain_whenClause hg,
    plain_block hg⟩) rfl

theorem plain_tryStatement : Plain (tryStatement g) := by
  have hfinally : Plain (node .finallyClause (seq [bump, block g])) :=
    .free_node (.seq ⟨.bump, plain_block hg⟩) rfl
  have hclauses : Plain (seq [many (atKeyword .kwCatch) (catchClause g),
      whenever (atKeyword .kwFinally) (node .finallyClause (seq [bump, block g]))]) :=
    .seq ⟨.many fun s _ => plain_catchClause hg s, .whenever fun s _ => hfinally s⟩
  have hhandlers : Plain (look fun s =>
      if atKeyword .kwCatch s || atKeyword .kwFinally s then
        seq [many (atKeyword .kwCatch) (catchClause g),
          whenever (atKeyword .kwFinally) (node .finallyClause (seq [bump, block g]))]
      else fail "`catch` or `finally`") :=
    .look fun s => .ite (fun _ => hclauses s) fun _ => Plain.fail s
  exact .free_node (.seq ⟨.bump, plain_block hg, hhandlers⟩) rfl

theorem plain_usingStatement : Plain (usingStatement g) := by
  have hresource : Plain (look fun s =>
      if looksLikeVariables g s then variableDeclaration g else expression g) :=
    .look fun s => .ite (fun _ => plain_variableDeclaration hg s) fun _ => plain_expression hg s
  have hbody : Plain (node .usingStatement (seq [bump, bump, look fun s =>
      if looksLikeVariables g s then variableDeclaration g else expression g,
      expect .closeParen "`)`", g.statement])) :=
    .free_node (.seq ⟨.bump, .bump, hresource, .expect, hg.statement⟩) rfl
  have hdeclaration : Plain (node .localDeclarationStatement
      (seq [bump, variableDeclaration g, semicolon])) :=
    .free_node (.seq ⟨.bump, plain_variableDeclaration hg, plain_semicolon⟩) rfl
  exact .look fun s => .ite (fun _ => hbody s) fun _ => hdeclaration s

theorem plain_yieldStatement : Plain (yieldStatement g) := by
  have hreturn : Plain (node .yieldReturnStatement (seq [bump, bump, expression g, semicolon])) :=
    .free_node (.seq ⟨.bump, .bump, plain_expression hg, plain_semicolon⟩) rfl
  have hbreak : Plain (node .yieldBreakStatement (seq [bump, bump, semicolon])) :=
    .free_node (.seq ⟨.bump, .bump, plain_semicolon⟩) rfl
  exact .look fun s => .ite (fun _ => hreturn s) fun _ => hbreak s

theorem plain_plainStatement : Plain (plainStatement g) := by
  have hvariables : Plain (node .localDeclarationStatement
      (seq [variableDeclaration g, semicolon])) :=
    .free_node (.seq ⟨plain_variableDeclaration hg, plain_semicolon⟩) rfl
  have hexpression : Plain (node .expressionStatement (seq [expression g, semicolon])) :=
    .free_node (.seq ⟨plain_expression hg, plain_semicolon⟩) rfl
  exact .look fun s => .ite (fun _ => plain_yieldStatement hg s) fun _ =>
    .ite (fun _ => hvariables s) fun _ => hexpression s

theorem plain_statement : Plain (statement g) := by
  have hvalue : Plain (whenever (fun s => !atKind .semicolon s) (expression g)) :=
    .whenever fun s _ => plain_expression hg s
  have hjump {kind : NodeKind} (hkind : kind.isFree = true) : Plain (node kind
      (seq [bump, whenever (fun s => !atKind .semicolon s) (expression g), semicolon])) :=
    .free_node (.seq ⟨.bump, hvalue, plain_semicolon⟩) hkind
  have hbare {kind : NodeKind} (hkind : kind.isFree = true) : Plain (node kind (seq [bump, semicolon])) :=
    .free_node (.seq ⟨.bump, plain_semicolon⟩) hkind
  have hbody {kind : NodeKind} (hkind : kind.isFree = true) :
      Plain (node kind (seq [bump, condition g, g.statement])) :=
    .free_node (.seq ⟨.bump, plain_condition hg, hg.statement⟩) hkind
  have hdo : Plain (node .doStatement
      (seq [bump, g.statement, expect (.keyword .kwWhile) "`while`", condition g, semicolon])) :=
    .free_node (.seq ⟨.bump, hg.statement, .expect, plain_condition hg, plain_semicolon⟩) rfl
  have hempty : Plain (node .emptyStatement bump) := .free_node .bump rfl
  have hmodifier : Plain (node .modifierList bump) := (builds_words .bump).plain
  have hconst : Plain (node .localDeclarationStatement
      (seq [node .modifierList bump, variableDeclaration g, semicolon])) :=
    .free_node (.seq ⟨hmodifier, plain_variableDeclaration hg, plain_semicolon⟩) rfl
  unfold statement
  refine .look fun s => ?_
  split
  case h_1 => exact plain_block hg s
  case h_2 => exact hempty s
  case h_3 => exact hjump rfl s
  case h_4 => exact hjump rfl s
  case h_5 => exact plain_ifStatement hg s
  case h_6 => exact hbody rfl s
  case h_7 => exact plain_forStatement hg s
  case h_8 => exact plain_foreachStatement hg s
  case h_9 => exact hbare rfl s
  case h_10 => exact hbare rfl s
  case h_11 => exact hdo s
  case h_12 => exact hbody rfl s
  case h_13 => exact plain_switchStatement hg s
  case h_14 => exact plain_tryStatement hg s
  case h_15 => exact plain_usingStatement hg s
  case h_16 => exact hconst s
  case h_17 => exact plain_plainStatement hg s

/-! ## Parts of declarations -/

theorem plain_typeParameters : Plain (typeParameters g) := .whenever fun s _ => plain_typeArguments hg s

theorem plain_argumentList : Plain (argumentList g) := (builds_argumentList hg).plain

theorem plain_baseList : Plain (baseList g) := by
  have hbase : Plain (seq [type g, whenever (atKind .openParen) (argumentList g)]) :=
    .seq ⟨plain_type hg, .whenever fun s _ => plain_argumentList hg s⟩
  have hlist : Plain (node .baseList
      (seq [bump, separated (seq [type g, whenever (atKind .openParen) (argumentList g)])])) :=
    .free_node (.seq ⟨.bump, hbase.separated⟩) rfl
  exact .whenever fun s _ => hlist s

omit hg in
theorem plain_constraints : Plain constraints := by
  have hwords : Plain (many (fun s => !atBody s) bump) := .many fun s _ => Plain.bump s
  exact .whenever fun s _ => hwords s

theorem plain_arrowClause : Plain (arrowClause g) :=
  .free_node (.seq ⟨.bump, plain_expression hg⟩) rfl

theorem plain_arrowBody : Plain (seq [arrowClause g, semicolon]) :=
  .seq ⟨plain_arrowClause hg, plain_semicolon⟩

theorem plain_methodBody : Plain (methodBody g) :=
  .look fun s => .ite (fun _ => plain_block hg s) fun _ =>
    .ite (fun _ => plain_arrowBody hg s) fun _ => Plain.expect s

theorem plain_accessorList : Plain (accessorList g) := by
  have haccessor : Plain (node .accessorDeclaration (seq [attributes, modifiers,
      expect .identifier "`get`, `set` or `init`", methodBody g])) :=
    .free_node (.seq ⟨builds_attributes.plain, builds_modifiers.plain, .expect,
      plain_methodBody hg⟩) rfl
  exact .free_node (.seq ⟨.bump, .many fun s _ => haccessor s, .expect⟩) rfl

theorem plain_typeBody : Plain (typeBody g) :=
  .seq ⟨.expect, .many fun s _ => hg.member s, .expect, .eat⟩

/-! ## Types -/

omit hg in
theorem builds_header : Builds IsHeader (seq [attributes, modifiers]) := by
  refine (Builds.seq (.cons builds_attributes (.cons builds_modifiers .nil))).mono ?_
  rintro _ ⟨_, _, rfl, ⟨n, rfl⟩, _, _, rfl, rfl, rfl⟩
  exact ⟨n, rfl⟩

/-- What a type declaration has behind its keyword: the name, with what may stand in front of it. -/
def IsNamed (k : NodeKind) (ls : List Label) : Prop :=
  ∃ between rest, IsBetween k between ∧ ls = between ++ .token .identifier :: rest

omit hg in
/-- The name stands right behind the keyword. -/
theorem buildsAt_named {kind : NodeKind} {what : String} {ps : List Production}
    (hps : ps.Forall Plain) (hkind : IsBetween kind []) :
    BuildsAt (IsNamed kind) (seq (expect .identifier what :: ps)) s := by
  have hname : Builds (IsOnly (.token .identifier)) (expect .identifier what) := .expect nofun
  refine (hname.cons (Plain.seq hps).builds s).mono ?_
  rintro _ ⟨_, rest, rfl, rfl, -⟩
  exact ⟨[], rest, hkind, rfl⟩

omit hg in
/-- Something stands in front of the name. -/
theorem buildsAt_between {kind : NodeKind} {what : String} {p : Production} {ps : List Production}
    (hp : BuildsAt (IsBetween kind) p s) (hps : ps.Forall Plain) :
    BuildsAt (IsNamed kind) (seq (p :: expect .identifier what :: ps)) s := by
  have hname : Builds (IsOnly (.token .identifier)) (expect .identifier what) := .expect nofun
  refine (hp.andThen fun _ rest _ => hname.cons (Plain.seq hps).builds rest).mono ?_
  rintro _ ⟨between, _, rfl, hbetween, _, rest, rfl, rfl, -⟩
  exact ⟨between, rest, hbetween, rfl⟩

section
variable {header : List Tree} (hheader : Labelled IsHeader header)
include hheader

omit hg in
/-- The word of the declaration and a name make the declaration of a type. -/
theorem plainAt_declaredType {kind : NodeKind} {word : TokenKind} {ps : List Production}
    (hs : kindAhead 0 s = word) (hend : word ≠ .endOfFile)
    (hps : BuildsAt (IsNamed kind) (seq ps) (s.drop 1)) (hkind : kind.isTypeDeclaration = true)
    (hword : word = kind.typeWord) :
    PlainAt (node kind (seq (keep header :: bump :: ps))) s := by
  have hone (ts : List Tree) (rest : List Lexeme) (hok : bump s = .ok (ts, rest)) :
      rest = s.drop 1 :=
    (bump_eq (readable_of_kind hs hend) hok).1
  have hbody : BuildsAt (Both (IsOnly (.token word)) (IsNamed kind)) (seq (bump :: ps)) s :=
    (BuildsAt.bump hs hend).seq_second hone hps
  refine ((hbody.keep_seq hheader).node ?_).plain
  rintro _ ⟨a, _, rfl, ha, _, _, rfl, rfl, between, rest, hbetween, rfl⟩
  exact shape_of_isTypeDeclaration hkind ⟨a, word, between, rest, ha, hword, hbetween, rfl⟩

theorem plainAt_typeDeclaration {kind : NodeKind} {k : Keyword} (hs : kindAhead 0 s = .keyword k)
    (hkind : kind.isTypeDeclaration = true) (hword : .keyword k = kind.typeWord)
    (hbetween : IsBetween kind []) : PlainAt (typeDeclaration g kind header) s :=
  plainAt_declaredType hheader hs nofun (buildsAt_named ⟨plain_typeParameters hg,
    plain_baseList hg, plain_constraints, plain_typeBody hg⟩ hbetween) hkind hword

theorem plainAt_recordDeclaration (hs : kindAhead 0 s = .identifier) :
    PlainAt (recordDeclaration g header) s := by
  have hbody : Plain (look fun s => if atKind .semicolon s then bump else typeBody g) :=
    .look fun s => .ite (fun _ => Plain.bump s) fun _ => plain_typeBody hg s
  have hparameters : Plain (whenever (atKind .openParen) (parameterList g)) :=
    .whenever fun s _ => plain_parameterList hg s
  have hnext : kindAhead 0 (s.drop 1) = kindAhead 1 s := kindAhead_drop
  have hend (k : Keyword) : TokenKind.keyword k ≠ .endOfFile := TokenKind.noConfusion
  refine MakesAt.look ?_
  cases hstruct : kindAhead 1 s == .keyword .kwStruct with
  | true =>
    have hword : kindAhead 0 (s.drop 1) = .keyword .kwStruct := hnext.trans (beq_iff_eq.mp hstruct)
    refine plainAt_declaredType hheader hs (by decide) (buildsAt_between ?_ ⟨plain_typeParameters hg,
      hparameters, plain_baseList hg, plain_constraints, hbody⟩) rfl rfl
    refine .look (.ite (fun _ => .bump hword (hend _)) fun hnone => ?_)
    simp only [atKeyword, atKind, hword, beq_self_eq_true, Bool.true_or] at hnone
    cases hnone
  | false =>
    refine plainAt_declaredType hheader hs (by decide) (buildsAt_between ?_ ⟨plain_typeParameters hg,
      hparameters, plain_baseList hg, plain_constraints, hbody⟩) rfl rfl
    refine .look (.ite (fun hword => ?_) fun _ => .keep ⟨trivial, .inl rfl⟩)
    simp only [atKeyword, atKind, hnext, hstruct, Bool.false_or] at hword
    have hclass : kindAhead 0 (s.drop 1) = .keyword .kwClass := hnext.trans (beq_iff_eq.mp hword)
    exact (BuildsAt.bump hclass (hend _)).mono fun _ => .inr

theorem plainAt_enumDeclaration (hs : kindAhead 0 s = .keyword .kwEnum) :
    PlainAt (enumDeclaration g header) s := by
  have hmember : Plain (node .enumMemberDeclaration (seq [attributes,
      expect .identifier "enum member", whenever (atKind .eq) (equalsValue g)])) :=
    .free_node (.seq ⟨builds_attributes.plain, .expect, plain_defaultValue hg⟩) rfl
  exact plainAt_declaredType hheader hs nofun (buildsAt_named ⟨plain_baseList hg, .expect,
    .items hmember, .expect, .eat⟩ rfl) rfl rfl

theorem plainAt_delegateDeclaration (hs : kindAhead 0 s = .keyword .kwDelegate) :
    PlainAt (delegateDeclaration g header) s :=
  plainAt_declaredType hheader hs nofun (buildsAt_between (builds_type hg _)
    ⟨plain_typeParameters hg, plain_parameterList hg, plain_constraints, plain_semicolon⟩) rfl rfl

/-! ## Members -/

omit hg in
/-- A declaration without a form of its own. -/
theorem plainAt_declaration {kind : NodeKind} {ps : List Production} (hps : PlainAt (seq ps) s)
    (hkind : kind.isFree = true) : PlainAt (node kind (seq (keep header :: ps))) s :=
  (PlainAt.keep_seq hheader.1 hps).free_node hkind

theorem plainAt_constructorDeclaration : PlainAt (constructorDeclaration g header) s := by
  have htarget : Plain (look fun s =>
      if atKeyword .kwThis s || atKeyword .kwBase s then bump else fail "`base` or `this`") :=
    .look fun s => .ite (fun _ => Plain.bump s) fun _ => Plain.fail s
  have hcall : Plain (seq [bump, look fun s =>
      if atKeyword .kwThis s || atKeyword .kwBase s then bump else fail "`base` or `this`",
      argumentList g]) := .seq ⟨.bump, htarget, plain_argumentList hg⟩
  have hinitial : Plain (whenever (atKind .colon) (seq [bump, look fun s =>
      if atKeyword .kwThis s || atKeyword .kwBase s then bump else fail "`base` or `this`",
      argumentList g])) := .whenever fun s _ => hcall s
  exact plainAt_declaration hheader ((Plain.bump s).seq ⟨plain_parameterList hg, hinitial,
    plain_methodBody hg⟩) rfl

theorem plainAt_conversionDeclaration : PlainAt (conversionDeclaration g header) s :=
  plainAt_declaration hheader ((Plain.bump s).seq ⟨.bump, plain_type hg, plain_parameterList hg,
    plain_methodBody hg⟩) rfl

/-- A method has its type and its name behind the header. -/
theorem plainAt_methodDeclaration {ty : List Tree} (hty : Labelled IsType ty)
    (hs : kindAhead 0 s = .identifier) :
    PlainAt (node .methodDeclaration (seq [seq [keep header, keep ty, bump], typeParameters g,
      parameterList g, constraints, methodBody g])) s := by
  have hname : BuildsAt (Concat [IsOnly (.token .identifier)]) (seq [bump]) s :=
    (BuildsAt.bump hs nofun).seq .nil
  have hbehind : Plain (seq [typeParameters g, parameterList g, constraints, methodBody g]) :=
    .seq ⟨plain_typeParameters hg, plain_parameterList hg, plain_constraints, plain_methodBody hg⟩
  refine ((((hname.keep_seq hty).keep_seq hheader).andThen
    fun _ rest _ => hbehind.builds rest).node ?_).plain
  rintro _ ⟨_, rest, rfl, ⟨a, _, rfl, ha, _, _, rfl, ⟨t, ht, rfl⟩, _, _, rfl, rfl, rfl⟩, -⟩
  exact ⟨⟨a, t, rest, ha, ht, by simp⟩, nofun⟩

theorem plainAt_typedMember : PlainAt (typedMember g header) s := by
  refine MakesAt.extend (builds_type hg s) fun ty s hty => MakesAt.look ?_
  have hname : PlainAt (seq [bump]) s := (Plain.bump s).seq trivial
  have hstart : PlainAt (seq [keep header, keep ty, bump]) s :=
    .keep_seq hheader.1 (.keep_seq hty.1 hname)
  have hmember {kind : NodeKind} {ps : List Production} (hps : ps.Forall Plain)
      (hkind : kind.isFree = true) :
      PlainAt (node kind (seq (seq [keep header, keep ty, bump] :: ps))) s :=
    (hstart.seq hps).free_node hkind
  have haccessors : Plain (look fun s =>
      if atKind .arrow s then seq [arrowClause g, semicolon] else accessorList g) :=
    .look fun s => .ite (fun _ => plain_arrowBody hg s) fun _ => plain_accessorList hg s
  have hsigns : Plain (many (before .openParen) bump) := .many fun s _ => Plain.bump s
  have hvalue : Plain (seq [equalsValue g, semicolon]) :=
    .seq ⟨plain_equalsValue hg, plain_semicolon⟩
  have hvariables : PlainAt (node .variableDeclaration (seq [keep ty, declarators g])) s := by
    have hdeclarators : PlainAt (seq [declarators g]) s := (plain_declarators hg s).seq trivial
    exact (PlainAt.keep_seq hty.1 hdeclarators).free_node rfl
  refine .ite (fun _ => hmember ⟨plain_bracketedParameterList hg, haccessors⟩ rfl) fun _ =>
    .ite (fun _ => hmember ⟨hsigns, plain_parameterList hg, plain_methodBody hg⟩ rfl) fun _ =>
    .ite (fun _ => Plain.fail s) fun hidentifier => ?_
  have hidentifier : kindAhead 0 s = .identifier :=
    beq_iff_eq.mp (Bool.not_eq_eq_eq_not.mp hidentifier)
  split
  case h_1 => exact plainAt_methodDeclaration hg hheader hty hidentifier
  case h_2 => exact plainAt_methodDeclaration hg hheader hty hidentifier
  case h_3 => exact hmember ⟨plain_accessorList hg, .whenever fun s _ => hvalue s⟩ rfl
  case h_4 => exact hmember ⟨plain_arrowClause hg, plain_semicolon⟩ rfl
  case h_5 => exact plainAt_declaration hheader (hvariables.seq plain_semicolon) rfl

end

theorem plain_member : Plain (member g) := by
  intro s
  refine MakesAt.extend (builds_header s) fun header s hheader => MakesAt.look ?_
  split
  case h_1 hs => exact plainAt_typeDeclaration hg hheader hs rfl rfl rfl
  case h_2 hs => exact plainAt_typeDeclaration hg hheader hs rfl rfl rfl
  case h_3 hs => exact plainAt_typeDeclaration hg hheader hs rfl rfl rfl
  case h_4 hs => exact plainAt_enumDeclaration hg hheader hs
  case h_5 hs => exact plainAt_delegateDeclaration hg hheader hs
  case h_6 =>
    refine .ite (fun hrecord => ?_) fun _ =>
      .ite (fun _ => plainAt_constructorDeclaration hg hheader) fun _ =>
      .ite (fun _ => plainAt_conversionDeclaration hg hheader) fun _ =>
      plainAt_typedMember hg hheader
    simp only [atRecord, atWord, Bool.and_eq_true] at hrecord
    exact plainAt_recordDeclaration hg hheader (beq_iff_eq.mp hrecord.1.1)

/-! ## Namespaces -/

theorem plain_usingDirective : Plain (usingDirective g) := by
  have halias : Plain (seq [bump, type g]) := .seq ⟨.bump, plain_type hg⟩
  exact .free_node (.seq ⟨.bump, .eat, builds_qualifiedName.plain, .whenever fun s _ => halias s,
    plain_semicolon⟩) rfl

theorem plainAt_namespaceDeclaration (hs : kindAhead 0 s = .keyword .kwNamespace) :
    PlainAt (namespaceDeclaration g) s := by
  have hname : BuildsAt (Concat [IsOnly (.token (.keyword .kwNamespace)), IsName])
      (seq [bump, qualifiedName]) s :=
    (BuildsAt.bump hs nofun).seq (.cons builds_qualifiedName .nil)
  have hfile : Plain (seq [bump, g.members .endOfFile]) := .seq ⟨.bump, hg.members _⟩
  have hbraces : Plain (seq [expect .openBrace "`\x7b` or `;`", g.members .closeBrace,
      expect .closeBrace "`\x7d`", eat .semicolon]) := .seq ⟨.expect, hg.members _, .expect, .eat⟩
  refine MakesAt.extend hname fun name s hname => MakesAt.look ?_
  refine .ite (fun _ => (((hfile s).builds.keep_seq hname).node ?_).plain)
    fun _ => (((hbraces s).builds.keep_seq hname).node ?_).plain
  all_goals
    rintro _ ⟨_, rest, rfl, ⟨_, _, rfl, rfl, name, _, rfl, hisName, rfl⟩, -⟩
    obtain rfl | rfl := hisName
    · exact ⟨⟨.identifierName, rest, .inl rfl, rfl⟩, nofun⟩
    · exact ⟨⟨.qualifiedName, rest, .inr rfl, rfl⟩, nofun⟩

theorem plain_namespaceMember : Plain (namespaceMember g) :=
  .look fun s => .ite (fun _ => plain_usingDirective hg s) fun _ =>
    .ite (fun hs => plainAt_namespaceDeclaration hg (beq_iff_eq.mp hs)) fun _ => plain_member hg s

theorem plain_members (stop : TokenKind) : Plain (members g stop) :=
  .many fun s _ => plain_namespaceMember hg s

end

end Grammar

open Grammar

/-! ## Source files -/

/-- Every level of the grammar builds shaped trees. -/
theorem shaped_level (n : Nat) : (Inner.level n).Shaped := by
  induction n with
  | zero =>
    exact ⟨.fail, .fail, .fail, .fail, fun _ => .fail, .fail, .fail, .fail, .fail, .fail, .fail,
      fun _ => .fail⟩
  | succ n ih =>
    exact
      { type := builds_type ih
        expression := builds_expression ih
        unary := builds_unary ih
        coalesce := builds_coalesce ih
        binary := builds_binary ih
        pattern := plain_pattern ih
        negatedPattern := plain_negatedPattern ih
        initializer := plain_initializer ih
        block := plain_block ih
        statement := plain_statement ih
        member := plain_member ih
        members := plain_members ih }

theorem shaped_compilationUnit {s : List Lexeme} {t : Tree} (h : compilationUnit s = .ok t) :
    t.Shaped := by
  have hunit : Plain (seq [(Inner.level (s.length + 1)).members .endOfFile, bump]) :=
    .seq ⟨(shaped_level (s.length + 1)).members _, .bump⟩
  unfold compilationUnit at h
  split at h
  · cases h
  · rename_i ts rest hok
    obtain rfl := Except.ok.inj h
    exact ⟨shape_of_isFree rfl _, hunit s ts rest hok⟩

/-- The tree of a text is shaped, and no token but the end of the text is empty. -/
theorem sound_parse {text : String} {t : Tree} (h : parse text = .ok t) : t.Sound := by
  obtain ⟨ls, hls, hunit⟩ := parse_eq_ok.mp h
  refine ⟨shaped_compilationUnit hunit, fun u hu hkind => ?_⟩
  rw [tokens_compilationUnit hunit (Lexeme.endsOnce_ofChars hls)] at hu
  obtain ⟨l, hl, rfl⟩ := List.mem_map.mp hu
  obtain ⟨body, ts, rfl, hspelled⟩ := Lexeme.spelled_ofChars hls
  rcases List.mem_append.mp hl with hl | hl
  · exact (hspelled l hl).1
  · obtain rfl := List.mem_singleton.mp hl
    exact absurd rfl hkind

end SharpLint
