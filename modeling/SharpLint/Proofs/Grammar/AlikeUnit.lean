import SharpLint.Proofs.Grammar.AlikeExpression
import SharpLint.Proofs.Grammar.CompilationUnit
import SharpLint.Proofs.Lexeme.Spelled

/-!
# Trivia do not change how a text is read

The rest of the grammar is blind to trivia as well, so every level of it is (`blind_level`). Two texts
whose lexemes are alike are both refused, or have the same tree up to trivia (`parse_alike`).

Without the condition on brackets this fails: in `x is A /*<*/` the comment makes the name look like a
type with arguments (`parse_sees_comment`).
-/

namespace SharpLint

open Production

namespace Grammar

/-! ## Statements -/

theorem blind_semicolon : Blind semicolon := .expect

section
variable {g : Inner} (hg : g.Blind) {s t : List Lexeme}
include hg

theorem blind_declarators : Blind (declarators g) :=
  .separated (.node (.seq ⟨.expect, blind_defaultValue hg⟩))

theorem blind_variableDeclaration : Blind (variableDeclaration g) :=
  .node (.seq ⟨blind_type hg, blind_declarators hg⟩)

theorem looksLikeVariables_alike (h : Alike s t) :
    looksLikeVariables g t = looksLikeVariables g s :=
  testAfterType_alike hg (fun _ _ h => by simp only [h.atKind, h.kindAhead]) h

theorem blind_block : Blind (block g) :=
  .node (.seq ⟨.expect, .many (fun _ _ h => h.before _) fun s t h _ => hg.statement s t h, .expect⟩)

theorem blind_condition : Blind (condition g) := .seq ⟨.expect, blind_expression hg, .expect⟩

theorem blind_ifStatement : Blind (ifStatement g) :=
  .node (.seq ⟨.bump, blind_condition hg, hg.statement,
    .whenever (fun _ _ h => h.atKeyword _) (.node (.seq ⟨.bump, hg.statement⟩))⟩)

theorem blind_forStatement : Blind (forStatement g) := by
  have hstart : Blind (look fun s =>
      if atKind .semicolon s then empty
      else if looksLikeVariables g s then variableDeclaration g
      else separated (expression g)) :=
    .look (fun _ _ h => by rw [h.atKind, looksLikeVariables_alike hg h]) fun s t h =>
      .ite (fun _ => Blind.empty s t h) fun _ =>
        .ite (fun _ => blind_variableDeclaration hg s t h) fun _ =>
          (blind_expression hg).separated s t h
  exact .node (.seq ⟨.bump, .expect, hstart, blind_semicolon,
    .whenever (fun _ _ h => by rw [h.atKind]) (blind_expression hg), blind_semicolon,
    .whenever (fun _ _ h => by rw [h.atKind]) (blind_expression hg).separated, .expect,
    hg.statement⟩)

theorem blind_foreachStatement : Blind (foreachStatement g) :=
  .node (.seq ⟨.bump, .expect, blind_type hg, .expect, .expect, blind_expression hg, .expect,
    hg.statement⟩)

omit hg in
theorem atSwitchLabel_alike (h : Alike s t) : atSwitchLabel t = atSwitchLabel s := by
  simp only [atSwitchLabel, h.atKeyword, h.kindAhead]

theorem agreeAt_switchLabel (h : Alike s t) (hs : atSwitchLabel s = true) :
    AgreeAt (switchLabel g) (switchLabel g) s t := by
  have hdefault : Blind (node .defaultSwitchLabel (seq [bump, bump])) := .node (.seq ⟨.bump, .bump⟩)
  refine .look ?_
  rw [h.atKeyword]
  refine .ite (fun _ => hdefault s t h) fun hnot => .node ?_
  have hcase : atKeyword .kwCase s = true := by simpa [atSwitchLabel, hnot] using hs
  refine .bump_seq h (readable_of_atKeyword hcase) fun h' => ?_
  exact (blindToName_pattern hg _ _ h' (sameName_behind h (by simp [hcase]))).seq
    ⟨blind_whenClause hg, .expect⟩

theorem blind_switchSection : Blind (switchSection g) := by
  have hsection : Blind (node .switchSection (seq [many atSwitchLabel (switchLabel g),
      many (fun s => before .closeBrace s && !atSwitchLabel s) g.statement])) := by
    refine .node (.seq ⟨.many (fun _ _ h => atSwitchLabel_alike h) fun s t h hs =>
      agreeAt_switchLabel hg h hs, .many (fun _ _ h => ?_) fun s t h _ => hg.statement s t h⟩)
    rw [h.before, atSwitchLabel_alike h]
  exact .look (fun _ _ h => by rw [atSwitchLabel_alike h]) fun s t h =>
    .ite (fun _ => hsection s t h) fun _ => Blind.fail s t h

theorem blind_switchStatement : Blind (switchStatement g) :=
  .node (.seq ⟨.bump, blind_condition hg, .expect,
    .many (fun _ _ h => h.before _) fun s t h _ => blind_switchSection hg s t h, .expect⟩)

theorem blind_catchClause : Blind (catchClause g) := by
  have hdeclaration : Blind (node .catchDeclaration
      (seq [bump, type g, eat .identifier, expect .closeParen "`)`"])) :=
    .node (.seq ⟨.bump, blind_type hg, .eat, .expect⟩)
  exact .node (.seq ⟨.bump, .whenever (fun _ _ h => h.atKind _) hdeclaration, blind_whenClause hg,
    blind_block hg⟩)

theorem blind_tryStatement : Blind (tryStatement g) := by
  have hfinally : Blind (node .finallyClause (seq [bump, block g])) :=
    .node (.seq ⟨.bump, blind_block hg⟩)
  have hhandlers : Blind (seq [many (atKeyword .kwCatch) (catchClause g),
      whenever (atKeyword .kwFinally) (node .finallyClause (seq [bump, block g]))]) :=
    .seq ⟨.many (fun _ _ h => h.atKeyword _) fun s t h _ => blind_catchClause hg s t h,
      .whenever (fun _ _ h => h.atKeyword _) hfinally⟩
  refine .node (.seq ⟨.bump, blind_block hg, .look (fun _ _ h => ?_) fun s t h => ?_⟩)
  · simp only [h.atKeyword]
  · exact .ite (fun _ => hhandlers s t h) fun _ => Blind.fail s t h

theorem blind_usingStatement : Blind (usingStatement g) := by
  have hresource : Blind (look fun s =>
      if looksLikeVariables g s then variableDeclaration g else expression g) :=
    .look (fun _ _ h => by rw [looksLikeVariables_alike hg h]) fun s t h =>
      .ite (fun _ => blind_variableDeclaration hg s t h) fun _ => blind_expression hg s t h
  have hbody : Blind (node .usingStatement (seq [bump, bump, look fun s =>
      if looksLikeVariables g s then variableDeclaration g else expression g,
      expect .closeParen "`)`", g.statement])) :=
    .node (.seq ⟨.bump, .bump, hresource, .expect, hg.statement⟩)
  have hdeclaration : Blind (node .localDeclarationStatement
      (seq [bump, variableDeclaration g, semicolon])) :=
    .node (.seq ⟨.bump, blind_variableDeclaration hg, blind_semicolon⟩)
  unfold usingStatement
  exact .look (fun _ _ h => by rw [h.kindAhead]) fun s t h =>
    .ite (fun _ => hbody s t h) fun _ => hdeclaration s t h

theorem blind_yieldStatement : Blind (yieldStatement g) := by
  have hreturn : Blind (node .yieldReturnStatement (seq [bump, bump, expression g, semicolon])) :=
    .node (.seq ⟨.bump, .bump, blind_expression hg, blind_semicolon⟩)
  have hbreak : Blind (node .yieldBreakStatement (seq [bump, bump, semicolon])) :=
    .node (.seq ⟨.bump, .bump, blind_semicolon⟩)
  exact .look (fun _ _ h => by rw [h.kindAhead]) fun s t h =>
    .ite (fun _ => hreturn s t h) fun _ => hbreak s t h

omit hg in
theorem atYield_alike (h : Alike s t) : atYield t = atYield s := by
  simp only [atYield, h.atWord, h.kindAhead]

theorem blind_plainStatement : Blind (plainStatement g) := by
  have hvariables : Blind (node .localDeclarationStatement
      (seq [variableDeclaration g, semicolon])) :=
    .node (.seq ⟨blind_variableDeclaration hg, blind_semicolon⟩)
  have hexpression : Blind (node .expressionStatement (seq [expression g, semicolon])) :=
    .node (.seq ⟨blind_expression hg, blind_semicolon⟩)
  refine .look (fun _ _ h => ?_) fun s t h => .ite (fun _ => blind_yieldStatement hg s t h)
    fun _ => .ite (fun _ => hvariables s t h) fun _ => hexpression s t h
  rw [atYield_alike h, looksLikeVariables_alike hg h]

theorem blind_statement : Blind (statement g) := by
  have hvalue : Blind (whenever (fun s => !atKind .semicolon s) (expression g)) :=
    .whenever (fun _ _ h => by rw [h.atKind]) (blind_expression hg)
  have hjump (kind : NodeKind) : Blind (node kind
      (seq [bump, whenever (fun s => !atKind .semicolon s) (expression g), semicolon])) :=
    .node (.seq ⟨.bump, hvalue, blind_semicolon⟩)
  have hbare (kind : NodeKind) : Blind (node kind (seq [bump, semicolon])) :=
    .node (.seq ⟨.bump, blind_semicolon⟩)
  have hbody (kind : NodeKind) : Blind (node kind (seq [bump, condition g, g.statement])) :=
    .node (.seq ⟨.bump, blind_condition hg, hg.statement⟩)
  have hdo : Blind (node .doStatement
      (seq [bump, g.statement, expect (.keyword .kwWhile) "`while`", condition g, semicolon])) :=
    .node (.seq ⟨.bump, hg.statement, .expect, blind_condition hg, blind_semicolon⟩)
  have hconst : Blind (node .localDeclarationStatement
      (seq [node .modifierList bump, variableDeclaration g, semicolon])) :=
    .node (.seq ⟨.node .bump, blind_variableDeclaration hg, blind_semicolon⟩)
  unfold statement
  refine .look (fun _ _ h => by simp only [h.kindAhead]) fun s t h => ?_
  split
  case h_1 => exact blind_block hg s t h
  case h_2 => exact Blind.bump.node s t h
  case h_3 => exact hjump _ s t h
  case h_4 => exact hjump _ s t h
  case h_5 => exact blind_ifStatement hg s t h
  case h_6 => exact hbody _ s t h
  case h_7 => exact blind_forStatement hg s t h
  case h_8 => exact blind_foreachStatement hg s t h
  case h_9 => exact hbare _ s t h
  case h_10 => exact hbare _ s t h
  case h_11 => exact hdo s t h
  case h_12 => exact hbody _ s t h
  case h_13 => exact blind_switchStatement hg s t h
  case h_14 => exact blind_tryStatement hg s t h
  case h_15 => exact blind_usingStatement hg s t h
  case h_16 => exact hconst s t h
  case h_17 => exact blind_plainStatement hg s t h

/-! ## Parts of declarations -/

theorem blind_typeParameters : Blind (typeParameters g) :=
  .whenever (fun _ _ h => h.atKind _) (blind_typeArguments hg)

theorem blind_baseList : Blind (baseList g) := by
  have hbase : Blind (seq [type g, whenever (atKind .openParen) (argumentList g)]) :=
    .seq ⟨blind_type hg, .whenever (fun _ _ h => h.atKind _) (blind_argumentList hg)⟩
  exact .whenever (fun _ _ h => h.atKind _) (.node (.seq ⟨.bump, .separated hbase⟩))

omit hg in
theorem blind_constraints : Blind constraints := by
  refine .whenever (fun _ _ h => h.atWord _) (.many (fun _ _ h => ?_) fun s t h _ =>
    Blind.bump s t h)
  simp only [atBody, h.atKind, h.atEnd]

theorem blind_arrowClause : Blind (arrowClause g) := .node (.seq ⟨.bump, blind_expression hg⟩)

theorem blind_arrowBody : Blind (seq [arrowClause g, semicolon]) :=
  .seq ⟨blind_arrowClause hg, blind_semicolon⟩

theorem blind_methodBody : Blind (methodBody g) :=
  .look (fun _ _ h => by simp only [h.atKind]) fun s t h =>
    .ite (fun _ => blind_block hg s t h) fun _ =>
      .ite (fun _ => blind_arrowBody hg s t h) fun _ => Blind.expect s t h

theorem blind_accessorList : Blind (accessorList g) := by
  have haccessor : Blind (node .accessorDeclaration (seq [attributes, modifiers,
      expect .identifier "`get`, `set` or `init`", methodBody g])) :=
    .node (.seq ⟨blind_attributes, blind_modifiers, .expect, blind_methodBody hg⟩)
  exact .node (.seq ⟨.bump, .many (fun _ _ h => h.before _) fun s t h _ => haccessor s t h,
    .expect⟩)

theorem blind_typeBody : Blind (typeBody g) :=
  .seq ⟨.expect, .many (fun _ _ h => h.before _) fun s t h _ => hg.member s t h, .expect, .eat⟩

/-! ## Types and members -/

section
variable {header header' : List Tree} (hheader : Tree.withoutTriviaOf header =
  Tree.withoutTriviaOf header') (h : Alike s t)
include hheader h

omit hg in
/-- A declaration with the same attributes and modifiers up to trivia. -/
theorem agreeAt_declaration {kind : NodeKind} {ps : List Production} (hps : Blind (seq ps)) :
    AgreeAt (node kind (seq (keep header :: ps))) (node kind (seq (keep header' :: ps))) s t :=
  .node (.keep_seq hheader (hps s t h) h)

theorem agreeAt_typeDeclaration (kind : NodeKind) :
    AgreeAt (typeDeclaration g kind header) (typeDeclaration g kind header') s t :=
  agreeAt_declaration hheader h (.seq ⟨.bump, .expect, blind_typeParameters hg, blind_baseList hg,
    blind_constraints, blind_typeBody hg⟩)

theorem agreeAt_recordDeclaration :
    AgreeAt (recordDeclaration g header) (recordDeclaration g header') s t := by
  have hend : Blind (look fun s => if atKind .semicolon s then bump else typeBody g) :=
    .look (fun _ _ h => by rw [h.atKind]) fun s t h =>
      .ite (fun _ => Blind.bump s t h) fun _ => blind_typeBody hg s t h
  refine .look ?_
  rw [h.kindAhead]
  exact agreeAt_declaration hheader h (.seq ⟨.bump,
    .whenever (fun _ _ h => by rw [h.atKeyword, h.atKeyword]) .bump, .expect,
    blind_typeParameters hg, .whenever (fun _ _ h => h.atKind _) (blind_parameterList hg),
    blind_baseList hg, blind_constraints, hend⟩)

theorem agreeAt_enumDeclaration :
    AgreeAt (enumDeclaration g header) (enumDeclaration g header') s t := by
  have hmember : Blind (node .enumMemberDeclaration (seq [attributes,
      expect .identifier "enum member", whenever (atKind .eq) (equalsValue g)])) :=
    .node (.seq ⟨blind_attributes, .expect, blind_defaultValue hg⟩)
  exact agreeAt_declaration hheader h (.seq ⟨.bump, .expect, blind_baseList hg, .expect,
    .items (fun _ _ h => h.before _) hmember, .expect, .eat⟩)

theorem agreeAt_delegateDeclaration :
    AgreeAt (delegateDeclaration g header) (delegateDeclaration g header') s t :=
  agreeAt_declaration hheader h (.seq ⟨.bump, blind_type hg, .expect, blind_typeParameters hg,
    blind_parameterList hg, blind_constraints, blind_semicolon⟩)

theorem agreeAt_constructorDeclaration :
    AgreeAt (constructorDeclaration g header) (constructorDeclaration g header') s t := by
  have htarget : Blind (look fun s =>
      if atKeyword .kwThis s || atKeyword .kwBase s then bump else fail "`base` or `this`") :=
    .look (fun _ _ h => by rw [h.atKeyword, h.atKeyword]) fun s t h =>
      .ite (fun _ => Blind.bump s t h) fun _ => Blind.fail s t h
  exact agreeAt_declaration hheader h (.seq ⟨.bump, blind_parameterList hg,
    .whenever (fun _ _ h => h.atKind _) (.seq ⟨.bump, htarget, blind_argumentList hg⟩),
    blind_methodBody hg⟩)

theorem agreeAt_conversionDeclaration :
    AgreeAt (conversionDeclaration g header) (conversionDeclaration g header') s t :=
  agreeAt_declaration hheader h (.seq ⟨.bump, .bump, blind_type hg, blind_parameterList hg,
    blind_methodBody hg⟩)

theorem agreeAt_typedMember :
    AgreeAt (typedMember g header) (typedMember g header') s t := by
  refine (blind_type hg s t h).extend fun ty ty' s t hty h => .look ?_
  have hname : AgreeAt (seq [bump]) (seq [bump]) s t := (Blind.bump s t h).seq trivial
  have hstart : AgreeAt (seq [keep header, keep ty, bump]) (seq [keep header', keep ty', bump])
      s t :=
    .keep_seq hheader (.keep_seq hty hname h) h
  have hdeclaration (kind : NodeKind) {ps : List Production} (hps : ps.Forall Blind) :
      AgreeAt (node kind (seq (seq [keep header, keep ty, bump] :: ps)))
        (node kind (seq (seq [keep header', keep ty', bump] :: ps))) s t :=
    .node (hstart.seq hps)
  have haccessors : Blind (look fun s =>
      if atKind .arrow s then seq [arrowClause g, semicolon] else accessorList g) :=
    .look (fun _ _ h => by rw [h.atKind]) fun s t h =>
      .ite (fun _ => blind_arrowBody hg s t h) fun _ => blind_accessorList hg s t h
  have hsigns : Blind (many (before .openParen) bump) :=
    .many (fun _ _ h => h.before _) fun s t h _ => Blind.bump s t h
  have hvalue : Blind (seq [equalsValue g, semicolon]) :=
    .seq ⟨blind_equalsValue hg, blind_semicolon⟩
  have hdeclarators : Blind (seq [declarators g]) := .seq (blind_declarators hg)
  simp only [h.atKeyword, h.kindAhead, h.atWord, h.atKind]
  refine .ite (fun _ => hdeclaration _ ⟨blind_bracketedParameterList hg, haccessors⟩) fun _ =>
    .ite (fun _ => hdeclaration _ ⟨hsigns, blind_parameterList hg, blind_methodBody hg⟩) fun _ =>
    .ite (fun _ => Blind.fail s t h) fun _ => ?_
  have hvariables : AgreeAt (node .variableDeclaration (seq [keep ty, declarators g]))
      (node .variableDeclaration (seq [keep ty', declarators g])) s t :=
    agreeAt_declaration hty h hdeclarators
  have hfield : AgreeAt
      (node .fieldDeclaration (seq [keep header,
        node .variableDeclaration (seq [keep ty, declarators g]), semicolon]))
      (node .fieldDeclaration (seq [keep header',
        node .variableDeclaration (seq [keep ty', declarators g]), semicolon])) s t :=
    .node (.keep_seq hheader (hvariables.seq blind_semicolon) h)
  generalize kindAhead 1 s = k
  split
  · exact hdeclaration _ ⟨blind_typeParameters hg, blind_parameterList hg, blind_constraints,
      blind_methodBody hg⟩
  · exact hdeclaration _ ⟨blind_typeParameters hg, blind_parameterList hg, blind_constraints,
      blind_methodBody hg⟩
  · exact hdeclaration _ ⟨blind_accessorList hg, .whenever (fun _ _ h => h.atKind _) hvalue⟩
  · exact hdeclaration _ ⟨blind_arrowClause hg, blind_semicolon⟩
  · exact hfield

end

omit hg in
theorem atConversion_alike (h : Alike s t) : atConversion t = atConversion s := by
  simp only [atConversion, h.atWord, h.any_head?]

omit hg in
theorem atRecord_alike (h : Alike s t) : atRecord t = atRecord s := by
  simp only [atRecord, h.atWord, h.kindAhead]

theorem blind_member : Blind (member g) := by
  refine .extend (.seq ⟨blind_attributes, blind_modifiers⟩) fun header header' s t hheader h =>
    .look ?_
  simp only [h.kindAhead, h.atKind, atRecord_alike h, atConversion_alike h]
  have hother : AgreeAt
      (if atRecord s then recordDeclaration g header
        else if atKind .identifier s && kindAhead 1 s == .openParen then
          constructorDeclaration g header
        else if atConversion s then conversionDeclaration g header
        else typedMember g header)
      (if atRecord s then recordDeclaration g header'
        else if atKind .identifier s && kindAhead 1 s == .openParen then
          constructorDeclaration g header'
        else if atConversion s then conversionDeclaration g header'
        else typedMember g header') s t :=
    .ite (fun _ => agreeAt_recordDeclaration hg hheader h) fun _ =>
      .ite (fun _ => agreeAt_constructorDeclaration hg hheader h) fun _ =>
      .ite (fun _ => agreeAt_conversionDeclaration hg hheader h) fun _ =>
      agreeAt_typedMember hg hheader h
  generalize kindAhead 0 s = k
  split
  · exact agreeAt_typeDeclaration hg hheader h _
  · exact agreeAt_typeDeclaration hg hheader h _
  · exact agreeAt_typeDeclaration hg hheader h _
  · exact agreeAt_enumDeclaration hg hheader h
  · exact agreeAt_delegateDeclaration hg hheader h
  · exact hother

/-! ## Namespaces -/

theorem blind_usingDirective : Blind (usingDirective g) := by
  have halias : Blind (seq [bump, type g]) := .seq ⟨.bump, blind_type hg⟩
  exact .node (.seq ⟨.bump, .eat, blind_qualifiedName, .whenever (fun _ _ h => h.atKind _) halias,
    blind_semicolon⟩)

theorem blind_namespaceDeclaration : Blind (namespaceDeclaration g) := by
  have hfile : Blind (seq [bump, g.members .endOfFile]) := .seq ⟨.bump, hg.members _⟩
  have hbraces : Blind (seq [expect .openBrace "`\x7b` or `;`", g.members .closeBrace,
      expect .closeBrace "`\x7d`", eat .semicolon]) :=
    .seq ⟨.expect, hg.members _, .expect, .eat⟩
  refine .extend (.seq ⟨.bump, blind_qualifiedName⟩) fun name name' s t hname h => .look ?_
  rw [h.atKind]
  exact .ite (fun _ => agreeAt_declaration hname h hfile) fun _ =>
    agreeAt_declaration hname h hbraces

theorem blind_namespaceMember : Blind (namespaceMember g) :=
  .look (fun _ _ h => by rw [h.atKeyword, h.atKeyword]) fun s t h =>
    .ite (fun _ => blind_usingDirective hg s t h) fun _ =>
      .ite (fun _ => blind_namespaceDeclaration hg s t h) fun _ => blind_member hg s t h

theorem blind_members (stop : TokenKind) : Blind (members g stop) :=
  .many (fun _ _ h => h.before _) fun s t h _ => blind_namespaceMember hg s t h

end

end Grammar

open Grammar

/-! ## Source files -/

/-- No level of the grammar sees trivia. -/
theorem blind_level (n : Nat) : (Inner.level n).Blind := by
  induction n with
  | zero =>
    have hfail : Blind (Production.fail "source text") := .fail
    have hname : BlindToName (Production.fail "source text") := fun s t h _ => hfail s t h
    exact ⟨exact_level 0, hfail, hfail, hfail, hfail, fun _ => hfail, hname, hname, hfail, hfail,
      hfail, hfail, fun _ => hfail⟩
  | succ n ih =>
    exact
      { exact := exact_level (n + 1)
        type := blind_type ih
        expression := blind_expression ih
        unary := blind_unary ih
        coalesce := blind_coalesce ih
        binary := blind_binary ih
        pattern := blindToName_pattern ih
        negatedPattern := blindToName_negatedPattern ih
        initializer := blind_initializer ih
        block := blind_block ih
        statement := blind_statement ih
        member := blind_member ih
        members := blind_members ih }

/-- Lexemes that are alike are both refused, or make the same tree up to trivia. -/
theorem compilationUnit_alike {s t : List Lexeme} (h : Alike s t) :
    (∃ a b, compilationUnit s = .ok a ∧ compilationUnit t = .ok b ∧
      a.withoutTrivia = b.withoutTrivia) ∨
    ∃ e f, compilationUnit s = .error e ∧ compilationUnit t = .error f := by
  have hunit : Blind (seq [(Inner.level (s.length + 1)).members .endOfFile, bump]) :=
    .seq ⟨(blind_level (s.length + 1)).members _, .bump⟩
  unfold compilationUnit
  rw [← h.length_eq]
  obtain ⟨hs, ht, htrees, -⟩ | ⟨hs, ht⟩ := hunit s t h
  · refine .inl ⟨_, _, by rw [hs], by rw [ht], ?_⟩
    simp only [Tree.withoutTrivia, htrees]
  · exact .inr ⟨_, _, by rw [hs], by rw [ht]⟩

/-- The lexemes of a text that are alike to others: the end of the text and the spelling of brackets
need not be asked for. -/
theorem alike_ofChars {cs : List Char} {s t : List Lexeme} (hs : Lexeme.ofChars cs = .ok s)
    (htokens : s.map (·.token.withoutTrivia) = t.map (·.token.withoutTrivia))
    (hshifts : s.tails.map atRightShift = t.tails.map atRightShift)
    (hbrackets : s.tails.map Lexeme.patternBrackets = t.tails.map Lexeme.patternBrackets)
    (hcommas : SameCommas (Lexeme.fromArms s) (Lexeme.fromArms t)) : Alike s t := by
  refine ⟨htokens, hshifts, hbrackets, .inr hcommas, Lexeme.endsOnce_ofChars hs, fun l hl hk => ?_⟩
  obtain ⟨body, ts, rfl, hspelled⟩ := Lexeme.spelled_ofChars hs
  rcases List.mem_append.mp hl with hl | hl
  · have htext := (hspelled l hl).2 hk
    rcases hk with hk | hk
    · rw [htext, hk]
      decide
    · rw [htext, hk]
      decide
  · obtain rfl := List.mem_singleton.mp hl
    rcases hk with hk | hk
    · cases hk
    · cases hk

/-- Two texts with the same tokens, of which the same `>` touch, are read alike: both are refused, or
their trees are the same up to trivia. The names that a pattern may start with need to have the same
brackets in their trivia: those behind a word for a pattern, and from the first `switch` expression on
those behind a comma. -/
theorem parse_alike {text₁ text₂ : String} {ls₁ ls₂ : List Lexeme}
    (h₁ : Lexeme.ofChars text₁.toList = .ok ls₁) (h₂ : Lexeme.ofChars text₂.toList = .ok ls₂)
    (htokens : ls₁.map (·.token.withoutTrivia) = ls₂.map (·.token.withoutTrivia))
    (hshifts : ls₁.tails.map atRightShift = ls₂.tails.map atRightShift)
    (hbrackets : ls₁.tails.map Lexeme.patternBrackets = ls₂.tails.map Lexeme.patternBrackets)
    (hcommas : SameCommas (Lexeme.fromArms ls₁) (Lexeme.fromArms ls₂)) :
    (∃ a b, parse text₁ = .ok a ∧ parse text₂ = .ok b ∧ a.withoutTrivia = b.withoutTrivia) ∨
      ∃ e f, parse text₁ = .error e ∧ parse text₂ = .error f := by
  obtain ⟨a, b, ha, hb, hab⟩ | ⟨e, f, he, hf⟩ :=
    compilationUnit_alike (alike_ofChars h₁ htokens hshifts hbrackets hcommas)
  · exact .inl ⟨a, b, parse_eq_ok.mpr ⟨ls₁, h₁, ha⟩, parse_eq_ok.mpr ⟨ls₂, h₂, hb⟩, hab⟩
  · refine .inr ⟨.locate text₁.toList e, .locate text₂.toList f, ?_, ?_⟩
    · simp only [parse, h₁, he]
    · simp only [parse, h₂, hf]

/-- A pattern whose name has a comment without brackets behind it. -/
def plainPattern : String := "class C \x7b int F = x is A /* */ ? 1 : 2; \x7d"

/-- The same with a line break and other comments, one of them with brackets, but not behind the
name. -/
def spreadPattern : String := "class C \x7b /* [<] */ int F = x\n is A ? 1 : 2; \x7d"

theorem parse_alike_spreadPattern :
    ∃ a b, parse plainPattern = .ok a ∧ parse spreadPattern = .ok b ∧
      a.withoutTrivia = b.withoutTrivia := by
  have hok : (parse plainPattern).isOk = true := by decide +kernel
  obtain h | ⟨e, f, he, -⟩ := parse_alike
    (show Lexeme.ofChars plainPattern.toList = .ok _ from rfl)
    (show Lexeme.ofChars spreadPattern.toList = .ok _ from rfl)
    (by decide +kernel) (by decide +kernel) (by decide +kernel) (by decide +kernel)
  · exact h
  · rw [he] at hok
    cases hok

/-- Behind a comma, a comment with brackets counts only where a `switch` expression came before. -/
example : (Lexeme.ofChars "enum E \x7b A, /// <b>\n B \x7d".toList).toOption.map Lexeme.fromArms =
    some [] := by
  decide +kernel

/-- The same with a bracket in the comment behind the name. -/
def bracketedPattern : String := "class C \x7b int F = x is A /*<*/ ? 1 : 2; \x7d"

/-- The tokens are the same and the same `>` touch, but the bracket in the comment makes the name
and the question mark look like a type, and the text is refused. -/
theorem parse_sees_comment :
    ∃ ls₁ ls₂, Lexeme.ofChars plainPattern.toList = .ok ls₁ ∧
      Lexeme.ofChars bracketedPattern.toList = .ok ls₂ ∧
      ls₁.map (·.token.withoutTrivia) = ls₂.map (·.token.withoutTrivia) ∧
      ls₁.tails.map atRightShift = ls₂.tails.map atRightShift ∧
      (parse plainPattern).isOk = true ∧ (parse bracketedPattern).isOk = false := by
  refine ⟨_, _, rfl, rfl, ?_, ?_, ?_, ?_⟩
  · decide +kernel
  · decide +kernel
  · decide +kernel
  · decide +kernel

end SharpLint
