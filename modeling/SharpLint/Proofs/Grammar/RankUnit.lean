import SharpLint.Proofs.Grammar.RankExpression
import SharpLint.Proofs.Grammar.ShapeUnit

/-!
# Source files are laid

Statements have the rank of expressions, declarations of types the fourth and namespaces the fifth.
So every level of the grammar builds laid trees (`laid_level`), and no two nodes of a source file have
the same kind and the same text (`findNode?_parse`).
-/

namespace SharpLint

open Production SharpLint.Tree

namespace Grammar

/-! ## Statements -/

theorem gives_semicolon : Gives 0 1 semicolon := .expect nofun

section
variable {g : Inner} (hg : g.Laid) {s : List Lexeme}
include hg

theorem gives_declarators : Gives 3 1 (declarators g) := by
  have hname : Gives 0 1 (expect .identifier "variable name") := .expect nofun
  have hdeclarator : Gives 3 1 (node .variableDeclarator
      (seq [expect .identifier "variable name", whenever (atKind .eq) (equalsValue g)])) :=
    (hname.cons ((gives_defaultValue hg).cons .nil)).node rfl
  exact hdeclarator.separated

theorem gives_variableDeclaration : Gives 1 1 (variableDeclaration g) :=
  ((gives_type hg).cons ((gives_declarators hg).cons .nil)).node rfl

theorem gives_block : Gives 1 1 (block g) := by
  have hopen : Gives 0 1 (expect .openBrace "`\x7b`") := .expect nofun
  have hclose : Gives 0 1 (expect .closeBrace "`\x7d`") := .expect nofun
  have hstatements : Gives 1 0 (many (before .closeBrace) g.statement) :=
    .many fun s _ => hg.statement s
  exact (hopen.cons (hstatements.cons (hclose.cons .nil))).node rfl

theorem gives_condition : Gives 1 3 (condition g) := by
  have hopen : Gives 0 1 (expect .openParen "`(`") := .expect nofun
  have hclose : Gives 0 1 (expect .closeParen "`)`") := .expect nofun
  exact hopen.cons ((gives_expression hg).cons (hclose.cons .nil))

theorem gives_ifStatement : Gives 1 1 (ifStatement g) := by
  have helse : Gives 1 0 (whenever (atKeyword .kwElse) (node .elseClause (seq [bump, g.statement]))) := by
    refine .whenever (c := 1) fun s hs => ?_
    exact ((GivesAt.bump (beq_iff_eq.mp hs) nofun).cons (hg.statement.cons .nil)).node rfl
  exact (Gives.bump.cons ((gives_condition hg).cons (hg.statement.cons (helse.cons .nil)))).node rfl

theorem gives_forStatement : Gives 1 1 (forStatement g) := by
  have hopen : Gives 0 1 (expect .openParen "`(`") := .expect nofun
  have hclose : Gives 0 1 (expect .closeParen "`)`") := .expect nofun
  have hstart : Gives 1 0 (look fun s =>
      if atKind .semicolon s then empty
      else if looksLikeVariables g s then variableDeclaration g
      else separated (expression g)) :=
    .look fun s => .ite (fun _ => Gives.empty s) fun _ =>
      .ite (fun _ => (gives_variableDeclaration hg s).mono (by decide) (by decide)) fun _ =>
        ((gives_expression hg).separated s).mono (by decide) (by decide)
  have htest : Gives 1 0 (whenever (fun s => !atKind .semicolon s) (expression g)) :=
    .whenever fun s _ => gives_expression hg s
  have hsteps : Gives 1 0 (whenever (fun s => !atKind .closeParen s) (separated (expression g))) :=
    .whenever fun s _ => (gives_expression hg).separated s
  exact (Gives.bump.cons (hopen.cons (hstart.cons (gives_semicolon.cons (htest.cons
    (gives_semicolon.cons (hsteps.cons (hclose.cons (hg.statement.cons .nil))))))))).node rfl

theorem gives_foreachStatement : Gives 1 1 (foreachStatement g) := by
  have hopen : Gives 0 1 (expect .openParen "`(`") := .expect nofun
  have hname : Gives 0 1 (expect .identifier "loop variable") := .expect nofun
  have hin : Gives 0 1 (expect (.keyword .kwIn) "`in`") := .expect nofun
  have hclose : Gives 0 1 (expect .closeParen "`)`") := .expect nofun
  exact (Gives.bump.cons (hopen.cons ((gives_type hg).cons (hname.cons (hin.cons
    ((gives_expression hg).cons (hclose.cons (hg.statement.cons .nil)))))))).node rfl

theorem gives_switchLabel : Gives 1 1 (switchLabel g) := by
  refine .look fun s => .ite (fun hs => ?_) fun _ => ?_
  · exact ((GivesAt.bump (beq_iff_eq.mp hs) nofun).cons (Gives.bump.cons .nil)).node rfl
  · have hcolon : Gives 0 1 (expect .colon "`:`") := .expect nofun
    exact (Gives.bump.cons ((gives_pattern hg).cons ((gives_whenClause hg).cons
      (hcolon.cons .nil)))).node rfl s

/-- A section starts with a label. -/
theorem gives_switchSection : Gives 2 1 (switchSection g) := by
  refine .look fun s => .ite (fun hs => ?_) fun _ => Gives.fail s
  have hne : s ≠ [] := by
    rintro rfl
    cases hs
  have hlabels : GivesAt 1 1 (many atSwitchLabel (switchLabel g)) s :=
    .many hne hs fun s _ => gives_switchLabel hg s
  have hstatements : Gives 1 0 (many (fun s => before .closeBrace s && !atSwitchLabel s) g.statement) :=
    .many fun s _ => hg.statement s
  exact (hlabels.cons (hstatements.cons .nil)).node rfl

theorem gives_switchStatement : Gives 1 1 (switchStatement g) := by
  have hopen : Gives 0 1 (expect .openBrace "`\x7b`") := .expect nofun
  have hclose : Gives 0 1 (expect .closeBrace "`\x7d`") := .expect nofun
  have hsections : Gives 2 0 (many (before .closeBrace) (switchSection g)) :=
    .many fun s _ => gives_switchSection hg s
  exact (Gives.bump.cons ((gives_condition hg).cons (hopen.cons (hsections.cons
    (hclose.cons .nil))))).node rfl

theorem givesAt_catchClause (hs : atKeyword .kwCatch s = true) : GivesAt 1 1 (catchClause g) s := by
  have hclose : Gives 0 1 (expect .closeParen "`)`") := .expect nofun
  have hdeclaration : Gives 1 1 (node .catchDeclaration
      (seq [bump, type g, eat .identifier, expect .closeParen "`)`"])) :=
    (Gives.bump.cons ((gives_type hg).cons (Gives.eat.cons (hclose.cons .nil)))).node rfl
  have hcaught : Gives 1 0 (whenever (atKind .openParen) (node .catchDeclaration
      (seq [bump, type g, eat .identifier, expect .closeParen "`)`"]))) :=
    .whenever fun s _ => hdeclaration s
  exact ((GivesAt.bump (beq_iff_eq.mp hs) nofun).cons (hcaught.cons ((gives_whenClause hg).cons
    ((gives_block hg).cons .nil)))).node rfl

theorem givesAt_tryStatement (hs : kindAhead 0 s = .keyword .kwTry) :
    GivesAt 1 1 (tryStatement g) s := by
  have hfinally : Gives 1 0 (whenever (atKeyword .kwFinally)
      (node .finallyClause (seq [bump, block g]))) := by
    refine .whenever (c := 1) fun s hs => ?_
    exact ((GivesAt.bump (beq_iff_eq.mp hs) nofun).cons ((gives_block hg).cons .nil)).node rfl
  have hcatches : Gives 1 0 (many (atKeyword .kwCatch) (catchClause g)) :=
    .many fun s hs => givesAt_catchClause hg hs
  have hclauses : Gives 1 0 (seq [many (atKeyword .kwCatch) (catchClause g),
      whenever (atKeyword .kwFinally) (node .finallyClause (seq [bump, block g]))]) :=
    hcatches.cons (hfinally.cons .nil)
  have hhandlers : Gives 1 0 (look fun s =>
      if atKeyword .kwCatch s || atKeyword .kwFinally s then
        seq [many (atKeyword .kwCatch) (catchClause g),
          whenever (atKeyword .kwFinally) (node .finallyClause (seq [bump, block g]))]
      else fail "`catch` or `finally`") :=
    .look fun s => .ite (fun _ => hclauses s) fun _ => Gives.fail s
  exact ((GivesAt.bump hs nofun).cons ((gives_block hg).cons (hhandlers.cons .nil))).node rfl

theorem gives_usingStatement : Gives 1 1 (usingStatement g) := by
  have hresource : Gives 1 1 (look fun s =>
      if looksLikeVariables g s then variableDeclaration g else expression g) :=
    .look fun s => .ite (fun _ => gives_variableDeclaration hg s) fun _ => gives_expression hg s
  have hclose : Gives 0 1 (expect .closeParen "`)`") := .expect nofun
  refine .look fun s => .ite (fun _ => ?_) fun _ => ?_
  · exact (Gives.bump.cons (Gives.bump.cons (hresource.cons (hclose.cons
      (hg.statement.cons .nil))))).node rfl s
  · exact (Gives.bump.cons ((gives_variableDeclaration hg).cons (gives_semicolon.cons .nil))).node
      rfl s

theorem gives_yieldStatement : Gives 1 1 (yieldStatement g) := by
  have hreturn : Gives 1 1 (node .yieldReturnStatement (seq [bump, bump, expression g, semicolon])) :=
    (Gives.bump.cons (Gives.bump.cons ((gives_expression hg).cons (gives_semicolon.cons .nil)))).node rfl
  have hbreak : Gives 1 1 (node .yieldBreakStatement (seq [bump, bump, semicolon])) :=
    (Gives.bump.cons (Gives.bump.cons (gives_semicolon.cons .nil))).node rfl
  exact .look fun s => .ite (fun _ => hreturn s) fun _ => hbreak s

theorem gives_plainStatement : Gives 1 1 (plainStatement g) := by
  have hvariables : Gives 1 1 (node .localDeclarationStatement
      (seq [variableDeclaration g, semicolon])) :=
    ((gives_variableDeclaration hg).cons (gives_semicolon.cons .nil)).node rfl
  have hexpression : Gives 1 1 (node .expressionStatement (seq [expression g, semicolon])) :=
    ((gives_expression hg).cons (gives_semicolon.cons .nil)).node rfl
  exact .look fun s => .ite (fun _ => gives_yieldStatement hg s) fun _ =>
    .ite (fun _ => hvariables s) fun _ => hexpression s

theorem gives_statement : Gives 1 1 (statement g) := by
  have hvalue : Gives 1 0 (whenever (fun s => !atKind .semicolon s) (expression g)) :=
    .whenever fun s _ => gives_expression hg s
  have hjump {kind : NodeKind} {s : List Lexeme} {k : Keyword} (hs : kindAhead 0 s = .keyword k)
      (hkind : kind.fits 1 2 1 1 = true) : GivesAt 1 1 (node kind
        (seq [bump, whenever (fun s => !atKind .semicolon s) (expression g), semicolon])) s :=
    ((GivesAt.bump hs nofun).cons (hvalue.cons (gives_semicolon.cons .nil))).node hkind
  have hbare {kind : NodeKind} (hkind : kind.fits 0 1 1 1 = true) :
      Gives 1 1 (node kind (seq [bump, semicolon])) :=
    (Gives.bump.cons (gives_semicolon.cons .nil)).node hkind
  have hbody {kind : NodeKind} (hkind : kind.fits 1 4 1 1 = true) :
      Gives 1 1 (node kind (seq [bump, condition g, g.statement])) :=
    (Gives.bump.cons ((gives_condition hg).cons (hg.statement.cons .nil))).node hkind
  have hwhile : Gives 0 1 (expect (.keyword .kwWhile) "`while`") := .expect nofun
  have hdo : Gives 1 1 (node .doStatement
      (seq [bump, g.statement, expect (.keyword .kwWhile) "`while`", condition g, semicolon])) :=
    (Gives.bump.cons (hg.statement.cons (hwhile.cons ((gives_condition hg).cons
      (gives_semicolon.cons .nil))))).node rfl
  have hmodifier : Gives 1 0 (node .modifierList bump) := Gives.bump.node rfl
  have hconst : Gives 1 1 (node .localDeclarationStatement
      (seq [node .modifierList bump, variableDeclaration g, semicolon])) :=
    (hmodifier.cons ((gives_variableDeclaration hg).cons (gives_semicolon.cons .nil))).node rfl
  unfold statement
  refine .look fun s => ?_
  split
  case h_1 => exact gives_block hg s
  case h_2 hs => exact (GivesAt.bump hs nofun).node rfl
  case h_3 hs => exact hjump hs rfl
  case h_4 hs => exact hjump hs rfl
  case h_5 => exact gives_ifStatement hg s
  case h_6 => exact hbody rfl s
  case h_7 => exact gives_forStatement hg s
  case h_8 => exact gives_foreachStatement hg s
  case h_9 => exact hbare rfl s
  case h_10 => exact hbare rfl s
  case h_11 => exact hdo s
  case h_12 => exact hbody rfl s
  case h_13 => exact gives_switchStatement hg s
  case h_14 hs => exact givesAt_tryStatement hg hs
  case h_15 => exact gives_usingStatement hg s
  case h_16 => exact hconst s
  case h_17 => exact gives_plainStatement hg s

/-! ## Parts of declarations -/

theorem gives_typeParameters : Gives 1 0 (typeParameters g) :=
  .whenever fun s _ => gives_typeArguments hg s

theorem gives_baseList : Gives 2 0 (baseList g) := by
  have harguments : Gives 1 0 (whenever (atKind .openParen) (argumentList g)) :=
    .whenever fun s _ => gives_argumentList hg s
  have hbase : Gives 1 1 (seq [type g, whenever (atKind .openParen) (argumentList g)]) :=
    (gives_type hg).cons (harguments.cons .nil)
  have hlist : Gives 2 1 (node .baseList
      (seq [bump, separated (seq [type g, whenever (atKind .openParen) (argumentList g)])])) :=
    (Gives.bump.cons (hbase.separated.cons .nil)).node rfl
  exact .whenever fun s _ => hlist s

omit hg in
theorem gives_constraints : Gives 0 0 constraints := by
  have hwords : Gives 0 0 (many (fun s => !atBody s) bump) := .many fun s _ => Gives.bump s
  exact .whenever fun s _ => hwords s

theorem gives_arrowBody : Gives 2 2 (seq [arrowClause g, semicolon]) := by
  have hclause : Gives 2 1 (arrowClause g) :=
    (Gives.bump.cons ((gives_expression hg).cons .nil)).node rfl
  exact hclause.cons (gives_semicolon.cons .nil)

theorem gives_methodBody : Gives 2 1 (methodBody g) := by
  have hnone : Gives 0 1 (expect .semicolon "method body or `;`") := .expect nofun
  exact .look fun s => .ite (fun _ => (gives_block hg s).mono (by decide) (by decide)) fun _ =>
    .ite (fun _ => (gives_arrowBody hg s).mono (by decide) (by decide)) fun _ =>
      (hnone s).mono (by decide) (by decide)

theorem gives_accessorList : Gives 2 1 (accessorList g) := by
  have hword : Gives 0 1 (expect .identifier "`get`, `set` or `init`") := .expect nofun
  have hclose : Gives 0 1 (expect .closeBrace "`\x7d`") := .expect nofun
  have haccessor : Gives 1 1 (node .accessorDeclaration (seq [attributes, modifiers,
      expect .identifier "`get`, `set` or `init`", methodBody g])) :=
    (gives_attributes.cons (gives_modifiers.cons (hword.cons ((gives_methodBody hg).cons
      .nil)))).node rfl
  have haccessors : Gives 1 0 (many (before .closeBrace) (node .accessorDeclaration (seq [attributes,
      modifiers, expect .identifier "`get`, `set` or `init`", methodBody g]))) :=
    .many fun s _ => haccessor s
  exact (Gives.bump.cons (haccessors.cons (hclose.cons .nil))).node rfl

theorem gives_typeBody : Gives 4 2 (typeBody g) := by
  have hopen : Gives 0 1 (expect .openBrace "`\x7b`") := .expect nofun
  have hclose : Gives 0 1 (expect .closeBrace "`\x7d`") := .expect nofun
  have hmembers : Gives 4 0 (many (before .closeBrace) g.member) := .many fun s _ => hg.member s
  exact hopen.cons (hmembers.cons (hclose.cons (Gives.eat.cons .nil)))

/-! ## Types -/

omit hg in
theorem gives_header : Gives 1 0 (seq [attributes, modifiers]) :=
  gives_attributes.cons (gives_modifiers.cons .nil)

section
variable {header : List Tree} (hheader : Ranked 1 0 header)
include hheader

theorem givesAt_typeDeclaration {kind : NodeKind} (hkind : kind.fits 4 3 4 1 = true) :
    GivesAt 4 1 (typeDeclaration g kind header) s := by
  have hname : Gives 0 1 (expect .identifier "type name") := .expect nofun
  have htail := Gives.bump.cons (hname.cons ((gives_typeParameters hg).cons ((gives_baseList hg).cons
    (gives_constraints.cons ((gives_typeBody hg).cons .nil)))))
  exact (GivesAt.keep_seq hheader (htail s)).node hkind

theorem givesAt_recordDeclaration : GivesAt 4 1 (recordDeclaration g header) s := by
  have hname : Gives 0 1 (expect .identifier "record name") := .expect nofun
  have hword : Gives 0 0 (whenever (fun s => atKeyword .kwStruct s || atKeyword .kwClass s) bump) :=
    .whenever fun s _ => Gives.bump s
  have hparameters : Gives 2 0 (whenever (atKind .openParen) (parameterList g)) :=
    .whenever fun s _ => gives_parameterList hg s
  have hend : Gives 4 1 (look fun s => if atKind .semicolon s then bump else typeBody g) :=
    .look fun s => .ite
      (fun hs => (GivesAt.bump (beq_iff_eq.mp hs) nofun).mono (by decide) (by decide))
      fun _ => (gives_typeBody hg s).mono (by decide) (by decide)
  have htail := Gives.bump.cons (hword.cons (hname.cons ((gives_typeParameters hg).cons
    (hparameters.cons ((gives_baseList hg).cons (gives_constraints.cons (hend.cons .nil)))))))
  refine .look ?_
  cases kindAhead 1 s == .keyword .kwStruct with
  | true => exact (GivesAt.keep_seq hheader (htail s)).node rfl
  | false => exact (GivesAt.keep_seq hheader (htail s)).node rfl

theorem givesAt_enumDeclaration : GivesAt 4 1 (enumDeclaration g header) s := by
  have hname : Gives 0 1 (expect .identifier "enum name") := .expect nofun
  have hmemberName : Gives 0 1 (expect .identifier "enum member") := .expect nofun
  have hopen : Gives 0 1 (expect .openBrace "`\x7b`") := .expect nofun
  have hclose : Gives 0 1 (expect .closeBrace "`\x7d`") := .expect nofun
  have hmember : Gives 3 1 (node .enumMemberDeclaration (seq [attributes,
      expect .identifier "enum member", whenever (atKind .eq) (equalsValue g)])) :=
    (gives_attributes.cons (hmemberName.cons ((gives_defaultValue hg).cons .nil))).node rfl
  have hmembers : Gives 3 0 (items (before .closeBrace) (node .enumMemberDeclaration (seq [attributes,
      expect .identifier "enum member", whenever (atKind .eq) (equalsValue g)]))) := hmember.items
  have hend : Gives 0 0 (eat .semicolon) := .eat
  have htail := Gives.bump.cons (hname.cons ((gives_baseList hg).cons (hopen.cons
    (hmembers.cons (hclose.cons (hend.cons .nil))))))
  exact (GivesAt.keep_seq hheader (htail s)).node rfl

theorem givesAt_delegateDeclaration : GivesAt 4 1 (delegateDeclaration g header) s := by
  have hname : Gives 0 1 (expect .identifier "delegate name") := .expect nofun
  have htail := Gives.bump.cons ((gives_type hg).cons (hname.cons ((gives_typeParameters hg).cons
    ((gives_parameterList hg).cons (gives_constraints.cons (gives_semicolon.cons .nil))))))
  exact (GivesAt.keep_seq hheader (htail s)).node rfl

/-! ## Members -/

theorem givesAt_constructorDeclaration : GivesAt 1 1 (constructorDeclaration g header) s := by
  have htarget : Gives 0 0 (look fun s =>
      if atKeyword .kwThis s || atKeyword .kwBase s then bump else fail "`base` or `this`") :=
    .look fun s => .ite (fun _ => Gives.bump s) fun _ => Gives.fail s
  have hcall : Gives 1 1 (seq [bump, look fun s =>
      if atKeyword .kwThis s || atKeyword .kwBase s then bump else fail "`base` or `this`",
      argumentList g]) := Gives.bump.cons (htarget.cons ((gives_argumentList hg).cons .nil))
  have hinitial : Gives 1 0 (whenever (atKind .colon) (seq [bump, look fun s =>
      if atKeyword .kwThis s || atKeyword .kwBase s then bump else fail "`base` or `this`",
      argumentList g])) := .whenever fun s _ => hcall s
  have htail := Gives.bump.cons ((gives_parameterList hg).cons (hinitial.cons
    ((gives_methodBody hg).cons .nil)))
  exact (GivesAt.keep_seq hheader (htail s)).node rfl

theorem givesAt_conversionDeclaration : GivesAt 1 1 (conversionDeclaration g header) s := by
  have htail := Gives.bump.cons (Gives.bump.cons ((gives_type hg).cons
    ((gives_parameterList hg).cons ((gives_methodBody hg).cons .nil))))
  exact (GivesAt.keep_seq hheader (htail s)).node rfl

theorem givesAt_typedMember : GivesAt 1 1 (typedMember g header) s := by
  refine (gives_type hg s).extend fun ty s hty => .look ?_
  have hname : Gives 0 0 (seq [bump]) := Gives.bump.cons .nil
  have hstart : GivesAt 1 1 (seq [keep header, keep ty, bump]) s :=
    .keep_seq hheader (.keep_seq hty (hname s))
  have haccessors : Gives 2 1 (look fun s =>
      if atKind .arrow s then seq [arrowClause g, semicolon] else accessorList g) :=
    .look fun s => .ite (fun _ => (gives_arrowBody hg s).mono (by decide) (by decide)) fun _ =>
      gives_accessorList hg s
  have hsigns : Gives 0 0 (many (before .openParen) bump) := .many fun s _ => Gives.bump s
  have hvalue : Gives 2 2 (seq [equalsValue g, semicolon]) :=
    (gives_equalsValue hg).cons (gives_semicolon.cons .nil)
  have hinitial : Gives 2 0 (whenever (atKind .eq) (seq [equalsValue g, semicolon])) :=
    .whenever fun s _ => hvalue s
  have hmethod := (gives_typeParameters hg).cons ((gives_parameterList hg).cons
    (gives_constraints.cons ((gives_methodBody hg).cons .nil)))
  refine .ite (fun _ => ?_) fun _ => .ite (fun _ => ?_) fun _ => .ite (fun _ => Gives.fail s)
    fun _ => ?_
  · exact (hstart.cons ((gives_bracketedParameterList hg).cons (haccessors.cons .nil))).node rfl
  · exact (hstart.cons (hsigns.cons ((gives_parameterList hg).cons
      ((gives_methodBody hg).cons .nil)))).node rfl
  split
  case h_1 => exact (hstart.cons hmethod).node rfl
  case h_2 => exact (hstart.cons hmethod).node rfl
  case h_3 => exact (hstart.cons ((gives_accessorList hg).cons (hinitial.cons .nil))).node rfl
  case h_4 => exact (hstart.cons (gives_arrowBody hg)).node rfl
  case h_5 =>
    have hvariables : GivesAt 1 1 (node .variableDeclaration (seq [keep ty, declarators g])) s :=
      .suffix_node hty (gives_declarators hg s) rfl
    have hfield := hvariables.cons (gives_semicolon.cons .nil)
    exact (GivesAt.keep_seq hheader hfield).node rfl

end

theorem gives_member : Gives 4 1 (member g) := by
  intro s
  refine (gives_header s).extend fun header s hheader => .look ?_
  have hmember {p : Production} (hp : GivesAt 1 1 p s) : GivesAt 4 1 p s :=
    hp.mono (by decide) (by decide)
  split
  case h_1 => exact givesAt_typeDeclaration hg hheader rfl
  case h_2 => exact givesAt_typeDeclaration hg hheader rfl
  case h_3 => exact givesAt_typeDeclaration hg hheader rfl
  case h_4 => exact givesAt_enumDeclaration hg hheader
  case h_5 => exact givesAt_delegateDeclaration hg hheader
  case h_6 =>
    exact .ite (fun _ => givesAt_recordDeclaration hg hheader) fun _ =>
      .ite (fun _ => hmember (givesAt_constructorDeclaration hg hheader)) fun _ =>
      .ite (fun _ => hmember (givesAt_conversionDeclaration hg hheader)) fun _ =>
      hmember (givesAt_typedMember hg hheader)

/-! ## Namespaces -/

theorem gives_usingDirective : Gives 1 1 (usingDirective g) := by
  have htype : Gives 1 1 (seq [bump, type g]) := Gives.bump.cons ((gives_type hg).cons .nil)
  have halias : Gives 1 0 (whenever (atKind .eq) (seq [bump, type g])) :=
    .whenever fun s _ => htype s
  exact (Gives.bump.cons (Gives.eat.cons (gives_qualifiedName.cons (halias.cons
    (gives_semicolon.cons .nil))))).node rfl

theorem givesAt_namespaceDeclaration (hs : atKeyword .kwNamespace s = true) :
    GivesAt 5 1 (namespaceDeclaration g) s := by
  have hname : GivesAt 1 2 (seq [bump, qualifiedName]) s :=
    (GivesAt.bump (beq_iff_eq.mp hs) nofun).cons (gives_qualifiedName.cons .nil)
  have hopen : Gives 0 1 (expect .openBrace "`\x7b` or `;`") := .expect nofun
  have hclose : Gives 0 1 (expect .closeBrace "`\x7d`") := .expect nofun
  have hend : Gives 0 0 (eat .semicolon) := .eat
  have hfile := Gives.bump.cons ((hg.members .endOfFile).cons .nil)
  have hbraces := hopen.cons ((hg.members .closeBrace).cons (hclose.cons (hend.cons .nil)))
  refine hname.extend fun name s hname => .look (.ite (fun _ => ?_) fun _ => ?_)
  · exact (GivesAt.keep_seq hname (hfile s)).node rfl
  · exact (GivesAt.keep_seq hname (hbraces s)).node rfl

theorem gives_members (stop : TokenKind) : Gives 5 0 (members g stop) := by
  refine .many (c := 1) fun s _ => .look (.ite (fun _ => ?_) fun _ => .ite (fun hs => ?_) fun _ => ?_)
  · exact (gives_usingDirective hg s).mono (by decide) (by decide)
  · exact givesAt_namespaceDeclaration hg hs
  · exact (gives_member hg s).mono (by decide) (by decide)

end

end Grammar

open Grammar

/-! ## Source files -/

/-- Every level of the grammar builds laid trees. -/
theorem laid_level (n : Nat) : (Inner.level n).Laid := by
  induction n with
  | zero =>
    exact ⟨.fail, .fail, .fail, .fail, fun _ => .fail, .fail, .fail, .fail, .fail, .fail, .fail,
      fun _ => .fail⟩
  | succ n ih =>
    exact
      { type := gives_type ih
        expression := gives_expression ih
        unary := gives_unary ih
        coalesce := gives_coalesce ih
        binary := gives_binary ih
        pattern := gives_pattern ih
        negatedPattern := gives_negatedPattern ih
        initializer := gives_initializer ih
        block := gives_block ih
        statement := gives_statement ih
        member := gives_member ih
        members := gives_members ih }

theorem laid_compilationUnit {s : List Lexeme} {t : Tree} (h : compilationUnit s = .ok t) :
    t.Laid := by
  have hmembers : Gives 5 0 ((Inner.level (s.length + 1)).members .endOfFile) :=
    (laid_level (s.length + 1)).members _
  have hunit : Gives 5 0 (seq [(Inner.level (s.length + 1)).members .endOfFile, bump]) :=
    hmembers.cons (Gives.bump.cons .nil)
  unfold compilationUnit at h
  split at h
  · cases h
  · rename_i ts rest hok
    obtain rfl := Except.ok.inj h
    have hfits : NodeKind.compilationUnit.fits 5 0 6 0 = true := rfl
    exact ((hunit s ts rest hok).node hfits).laid.1

theorem laid_parse {text : String} {t : Tree} (h : parse text = .ok t) : t.Laid := by
  obtain ⟨ls, -, hunit⟩ := parse_eq_ok.mp h
  exact laid_compilationUnit hunit

/-! ## Nodes of a source file -/

/-- Of the lexemes of a text, only the last one can be the end of the text. -/
theorem EndsOnce.only_end {s : List Lexeme} {us : List Token} (h : EndsOnce s)
    (hus : List.Sublist us (s.map Lexeme.token)) (hends : ∀ u ∈ us, u.kind = .endOfFile) :
    us = [] ∨ ∃ u, us = [u] ∧ u.text = "" := by
  induction s generalizing us with
  | nil => exact .inl (List.sublist_nil.mp hus)
  | cons l s ih =>
    cases hus with
    | cons _ hus => exact ih h.2 hus hends
    | @cons_cons us _ _ hus =>
      obtain ⟨rfl, htext⟩ := h.1 (hends _ List.mem_cons_self)
      exact .inr ⟨l.token, by rw [List.sublist_nil.mp hus], htext⟩

/-- A node with bytes in its span has a token that is not the end of the text. -/
theorem Node.Inside.hasWord_of_span {text : String} {t : Tree} {n : Node} (hn : n.Inside t)
    (h : parse text = .ok t) (hspan : n.span.isEmpty = false) : n.tree.HasWord := by
  obtain ⟨ls, hls, hunit⟩ := parse_eq_ok.mp h
  have hends := Lexeme.endsOnce_ofChars hls
  have hsublist : List.Sublist n.tree.tokens (ls.map Lexeme.token) := by
    rw [← tokens_compilationUnit hunit hends]
    exact hn.tokens_sublist
  by_contra hword
  have hbare : ∀ u ∈ n.tree.tokens, u.kind = .endOfFile := by simpa [HasWord] using hword
  have hstart := n.tree.spanAt_start n.offset
  have hstop := n.tree.spanAt_stop_add n.offset
  rw [width_eq_fullWidths] at hstop
  have hempty : n.span.start = n.span.stop := by
    rw [Node.span]
    obtain hnone | ⟨u, hu, htext⟩ := hends.only_end hsublist hbare
    · rw [hnone] at hstart hstop
      simp only [leadingWidth, trailingWidth, fullWidths, List.head?_nil, List.getLast?_nil,
        Option.map_none, Option.getD_none] at hstart hstop
      omega
    · rw [hu] at hstart hstop
      simp only [leadingWidth, trailingWidth, fullWidths, List.head?_cons, List.getLast?_singleton,
        Option.map_some, Option.getD_some, Token.fullWidth, htext, String.utf8ByteSize_empty]
        at hstart hstop
      omega
  rw [Span.isEmpty, hempty, beq_self_eq_true] at hspan
  cases hspan

/-- In the tree of a text, no two nodes have the same kind and the same span with bytes in it. So a
search for kind and span of a node finds this node. -/
theorem findNode?_parse {text : String} {t : Tree} (h : parse text = .ok t) :
    ((Node.root t).descendants.Pairwise fun n m =>
      n.kind = m.kind → n.span = m.span → n.span.isEmpty = true) ∧
    ∀ n ∈ (Node.root t).descendants, n.span.isEmpty = false →
      (Node.root t).findNode? n.span n.kind = some n := by
  have hfind (n : Node) (hn : n ∈ (Node.root t).descendants) (hspan : n.span.isEmpty = false) :
      (Node.root t).findNode? n.span n.kind = some n := by
    have hinside := Node.Inside.of_mem_descendants hn
    exact hinside.findNode?_self (laid_parse h) (sound_parse h) (hinside.hasWord_of_span h hspan)
  refine ⟨(Node.nodup_descendants _).imp_of_mem fun {n m} hn hm hne hkind hspan => ?_, hfind⟩
  by_contra hbytes
  have hbytes : n.span.isEmpty = false := Bool.eq_false_iff.mpr hbytes
  have hfound := hfind m hm (hspan ▸ hbytes)
  rw [← hkind, ← hspan, hfind n hn hbytes] at hfound
  exact hne (Option.some.inj hfound)

/-- Patterns, arguments, sections and variables with the spans of their children. -/
def sharedSpans : String :=
  "class C \x7b void M(int i) \x7b switch (i) \x7b case 1: break; \x7d int j, k = F(i is int); \x7d \x7d"

theorem findNode?_parse_sharedSpans :
    ∃ t, parse sharedSpans = .ok t ∧
      ((Node.root t).descendants.Pairwise fun n m =>
        n.kind = m.kind → n.span = m.span → n.span.isEmpty = true) ∧
      ∀ n ∈ (Node.root t).descendants, n.span.isEmpty = false →
        (Node.root t).findNode? n.span n.kind = some n := by
  have hread : (parse sharedSpans).isOk = true := by decide +kernel
  cases h : parse sharedSpans with
  | error e => rw [h] at hread; cases hread
  | ok t => exact ⟨t, rfl, findNode?_parse h⟩

end SharpLint
