import SharpLint.Grammar.Parse
import SharpLint.Proofs.Grammar.FollowsExpression

/-!
# What statements, declarations and source files follow

The rest of the grammar, in its order, and from it the whole: a reading that composes, and that holds
of the operators at each level, holds of everything that is read (`follows_level`,
`follows_compilationUnit`).
-/

namespace SharpLint

open Production Reading

namespace Grammar

variable {R : Reading} {g : Inner} (hR : R.Composes) (hg : g.Follows R) (hops : g.Operators R)
include hR

/-! ## Statements -/

theorem follows_semicolon : Follows R semicolon := hR.expect

section
include hg

theorem follows_declarators : Follows R (declarators g) :=
  hR.separated (hR.node rfl (hR.seq ⟨hR.expect, hR.whenever (follows_equalsValue hR hg)⟩))

theorem follows_variableDeclaration : Follows R (variableDeclaration g) :=
  hR.node rfl (hR.seq ⟨follows_type hR hg, follows_declarators hR hg⟩)

theorem follows_block : Follows R (block g) :=
  hR.node rfl (hR.seq ⟨hR.expect, hR.many hg.statement, hR.expect⟩)

include hops

omit hg in
theorem follows_condition : Follows R (condition g) :=
  hR.seq ⟨hR.expect, hops.expression, hR.expect⟩

theorem follows_ifStatement : Follows R (ifStatement g) := by
  have helse : Follows R (node .elseClause (seq [bump, g.statement])) :=
    hR.node rfl (hR.seq ⟨hR.bump, hg.statement⟩)
  exact hR.node rfl (hR.seq ⟨hR.bump, follows_condition hR hops, hg.statement, hR.whenever helse⟩)

theorem follows_forStatement : Follows R (forStatement g) := by
  have hstart : Follows R (look fun s =>
      if atKind .semicolon s then empty
      else if looksLikeVariables g s then variableDeclaration g
      else separated (expression g)) :=
    .look fun s => .ite (fun _ => hR.empty s) fun _ =>
      .ite (fun _ => follows_variableDeclaration hR hg s) fun _ => hR.separated hops.expression s
  exact hR.node rfl (hR.seq ⟨hR.bump, hR.expect, hstart, follows_semicolon hR,
    hR.whenever hops.expression, follows_semicolon hR, hR.whenever (hR.separated hops.expression),
    hR.expect, hg.statement⟩)

theorem follows_foreachStatement : Follows R (foreachStatement g) :=
  hR.node rfl (hR.seq ⟨hR.bump, hR.expect, follows_type hR hg, hR.expect, hR.expect,
    hops.expression, hR.expect, hg.statement⟩)

theorem follows_switchLabel : Follows R (switchLabel g) := by
  have hdefault : Follows R (node .defaultSwitchLabel (seq [bump, bump])) :=
    hR.node rfl (hR.seq ⟨hR.bump, hR.bump⟩)
  have hcase : Follows R (node .caseSwitchLabel
      (seq [bump, pattern g, whenClause g, expect .colon "`:`"])) :=
    hR.node rfl (hR.seq ⟨hR.bump, follows_pattern hR hg hops, follows_whenClause hR hg, hR.expect⟩)
  exact .look fun s => .ite (fun _ => hdefault s) fun _ => hcase s

theorem follows_switchSection : Follows R (switchSection g) := by
  have hsection : Follows R (node .switchSection (seq [many atSwitchLabel (switchLabel g),
      many (fun s => before .closeBrace s && !atSwitchLabel s) g.statement])) :=
    hR.node rfl (hR.seq ⟨hR.many (follows_switchLabel hR hg hops), hR.many hg.statement⟩)
  exact .look fun s => .ite (fun _ => hsection s) fun _ => .fail

theorem follows_switchStatement : Follows R (switchStatement g) :=
  hR.node rfl (hR.seq ⟨hR.bump, follows_condition hR hops, hR.expect,
    hR.many (follows_switchSection hR hg hops), hR.expect⟩)

omit hops in
theorem follows_catchClause : Follows R (catchClause g) := by
  have hdeclaration : Follows R (node .catchDeclaration
      (seq [bump, type g, eat .identifier, expect .closeParen "`)`"])) :=
    hR.node rfl (hR.seq ⟨hR.bump, follows_type hR hg, hR.eat, hR.expect⟩)
  exact hR.node rfl (hR.seq ⟨hR.bump, hR.whenever hdeclaration, follows_whenClause hR hg,
    follows_block hR hg⟩)

omit hops in
theorem follows_tryStatement : Follows R (tryStatement g) := by
  have hfinally : Follows R (node .finallyClause (seq [bump, block g])) :=
    hR.node rfl (hR.seq ⟨hR.bump, follows_block hR hg⟩)
  have hhandlers : Follows R (seq [many (atKeyword .kwCatch) (catchClause g),
      whenever (atKeyword .kwFinally) (node .finallyClause (seq [bump, block g]))]) :=
    hR.seq ⟨hR.many (follows_catchClause hR hg), hR.whenever hfinally⟩
  exact hR.node rfl (hR.seq ⟨hR.bump, follows_block hR hg,
    .look fun s => .ite (fun _ => hhandlers s) fun _ => .fail⟩)

theorem follows_usingStatement : Follows R (usingStatement g) := by
  have hresource : Follows R (look fun s =>
      if looksLikeVariables g s then variableDeclaration g else expression g) :=
    .look fun s => .ite (fun _ => follows_variableDeclaration hR hg s) fun _ => hops.expression s
  intro s
  refine .look (.ite (fun _ => ?_) fun _ => ?_)
  · exact hR.nodeAt rfl (hR.seqAt (hR.bump s) ⟨hR.bump, hresource, hR.expect, hg.statement⟩)
  · exact hR.nodeAt rfl (hR.seqAt (hR.bump s)
      ⟨follows_variableDeclaration hR hg, follows_semicolon hR⟩)

omit hg in
theorem follows_yieldStatement : Follows R (yieldStatement g) := by
  intro s
  refine .look (.ite (fun _ => ?_) fun _ => ?_)
  · exact hR.nodeAt rfl (hR.seqAt (hR.bump s) ⟨hR.bump, hops.expression, follows_semicolon hR⟩)
  · exact hR.nodeAt rfl (hR.seqAt (hR.bump s) ⟨hR.bump, follows_semicolon hR⟩)

theorem follows_plainStatement : Follows R (plainStatement g) := by
  have hsemicolon : [semicolon].Forall (Follows R) := follows_semicolon hR
  intro s
  refine .look (.ite (fun _ => follows_yieldStatement hR hops s) fun _ =>
    .ite (fun _ => ?_) fun _ => ?_)
  · exact hR.nodeAt rfl (hR.seqAt (follows_variableDeclaration hR hg s) hsemicolon)
  · exact hR.nodeAt rfl (hR.seqAt (hops.expression s) hsemicolon)

theorem follows_statement : Follows R (statement g) := by
  have hvalue : Follows R (whenever (fun s => !atKind .semicolon s) (expression g)) :=
    hR.whenever hops.expression
  have hcondition := follows_condition hR hops
  have hsemicolon := follows_semicolon hR
  have hmodifier : Follows R (node .modifierList bump) := hR.node rfl hR.bump
  have hbehind {s : List Lexeme} {kind : NodeKind} {ps : List Production}
      (hk : kind.isBinary = false) (hps : ps.Forall (Follows R)) :
      FollowsAt R s (node kind (seq (bump :: ps))) s :=
    hR.nodeAt hk (hR.seqAt (hR.bump s) hps)
  unfold statement
  refine .look fun s => ?_
  split
  case h_1 => exact follows_block hR hg s
  case h_2 => exact hR.nodeAt rfl (hR.bump s)
  case h_3 => exact hbehind rfl ⟨hvalue, hsemicolon⟩
  case h_4 => exact hbehind rfl ⟨hvalue, hsemicolon⟩
  case h_5 => exact follows_ifStatement hR hg hops s
  case h_6 => exact hbehind rfl ⟨hcondition, hg.statement⟩
  case h_7 => exact follows_forStatement hR hg hops s
  case h_8 => exact follows_foreachStatement hR hg hops s
  case h_9 => exact hbehind rfl hsemicolon
  case h_10 => exact hbehind rfl hsemicolon
  case h_11 => exact hbehind rfl ⟨hg.statement, hR.expect, hcondition, hsemicolon⟩
  case h_12 => exact hbehind rfl ⟨hcondition, hg.statement⟩
  case h_13 => exact follows_switchStatement hR hg hops s
  case h_14 => exact follows_tryStatement hR hg s
  case h_15 => exact follows_usingStatement hR hg hops s
  case h_16 =>
    exact hR.nodeAt rfl (hR.seqAt (hmodifier s) ⟨follows_variableDeclaration hR hg, hsemicolon⟩)
  case h_17 => exact follows_plainStatement hR hg hops s

end

/-! ## Parts of declarations -/

theorem follows_constraints : Follows R constraints := hR.whenever (hR.many hR.bump)

section
include hg

theorem follows_typeParameters : Follows R (typeParameters g) :=
  hR.whenever (follows_typeArguments hR hg)

theorem follows_baseList : Follows R (baseList g) := by
  have hbase : Follows R (seq [type g, whenever (atKind .openParen) (argumentList g)]) :=
    hR.seq ⟨follows_type hR hg, hR.whenever (follows_argumentList hR hg)⟩
  exact hR.whenever (hR.node rfl (hR.seq ⟨hR.bump, hR.separated hbase⟩))

theorem follows_typeBody : Follows R (typeBody g) :=
  hR.seq ⟨hR.expect, hR.many hg.member, hR.expect, hR.eat⟩

include hops

omit hg in
theorem follows_arrowClause : Follows R (arrowClause g) :=
  hR.node rfl (hR.seq ⟨hR.bump, hops.expression⟩)

omit hg in
theorem follows_arrowBody : Follows R (seq [arrowClause g, semicolon]) :=
  hR.seq ⟨follows_arrowClause hR hops, follows_semicolon hR⟩

theorem follows_methodBody : Follows R (methodBody g) :=
  .look fun s => .ite (fun _ => follows_block hR hg s) fun _ =>
    .ite (fun _ => follows_arrowBody hR hops s) fun _ => hR.expect s

theorem follows_accessorList : Follows R (accessorList g) := by
  have haccessor : Follows R (node .accessorDeclaration
      (seq [attributes, modifiers, expect .identifier "`get`, `set` or `init`", methodBody g])) :=
    hR.node rfl (hR.seq ⟨follows_attributes hR, follows_modifiers hR, hR.expect,
      follows_methodBody hR hg hops⟩)
  exact hR.node rfl (hR.seq ⟨hR.bump, hR.many haccessor, hR.expect⟩)

end

/-! ## Types

Each production takes attributes and modifiers that were read from `start` on. -/

section
variable {start s : List Lexeme} {header : List Tree} (hheader : R start header s)
include hg hheader

theorem follows_typeDeclaration {kind : NodeKind} (hk : kind.isBinary = false) :
    FollowsAt R start (typeDeclaration g kind header) s :=
  hR.nodeAt hk (hR.held_seq hheader ⟨hR.bump, hR.expect, follows_typeParameters hR hg,
    follows_baseList hR hg, follows_constraints hR, follows_typeBody hR hg⟩)

theorem follows_recordDeclaration : FollowsAt R start (recordDeclaration g header) s := by
  have hbody : Follows R (look fun s => if atKind .semicolon s then bump else typeBody g) :=
    .look fun s => .ite (fun _ => hR.bump s) fun _ => follows_typeBody hR hg s
  refine .look (hR.nodeAt ?_ (hR.held_seq hheader ⟨hR.bump, hR.whenever hR.bump, hR.expect,
    follows_typeParameters hR hg, hR.whenever (follows_parameterList hR hg), follows_baseList hR hg,
    follows_constraints hR, hbody⟩))
  split
  · rfl
  · rfl

theorem follows_enumDeclaration : FollowsAt R start (enumDeclaration g header) s := by
  have hmember : Follows R (node .enumMemberDeclaration
      (seq [attributes, expect .identifier "enum member",
        whenever (atKind .eq) (equalsValue g)])) :=
    hR.node rfl (hR.seq ⟨follows_attributes hR, hR.expect,
      hR.whenever (follows_equalsValue hR hg)⟩)
  exact hR.nodeAt rfl (hR.held_seq hheader ⟨hR.bump, hR.expect, follows_baseList hR hg, hR.expect,
    hR.items hmember, hR.expect, hR.eat⟩)

theorem follows_delegateDeclaration : FollowsAt R start (delegateDeclaration g header) s :=
  hR.nodeAt rfl (hR.held_seq hheader ⟨hR.bump, follows_type hR hg, hR.expect,
    follows_typeParameters hR hg, follows_parameterList hR hg, follows_constraints hR,
    follows_semicolon hR⟩)

/-! ## Members -/

include hops

theorem follows_constructorDeclaration :
    FollowsAt R start (constructorDeclaration g header) s := by
  have htarget : Follows R (look fun s =>
      if atKeyword .kwThis s || atKeyword .kwBase s then bump else fail "`base` or `this`") :=
    .look fun s => .ite (fun _ => hR.bump s) fun _ => .fail
  have hinitializer : Follows R (seq [bump, look fun s =>
      if atKeyword .kwThis s || atKeyword .kwBase s then bump else fail "`base` or `this`",
      argumentList g]) :=
    hR.seq ⟨hR.bump, htarget, follows_argumentList hR hg⟩
  exact hR.nodeAt rfl (hR.held_seq hheader ⟨hR.bump, follows_parameterList hR hg,
    hR.whenever hinitializer, follows_methodBody hR hg hops⟩)

theorem follows_conversionDeclaration : FollowsAt R start (conversionDeclaration g header) s :=
  hR.nodeAt rfl (hR.held_seq hheader ⟨hR.bump, hR.bump, follows_type hR hg,
    follows_parameterList hR hg, follows_methodBody hR hg hops⟩)

theorem follows_typedMember : FollowsAt R start (typedMember g header) s := by
  refine (follows_type hR hg s).extend fun ty rest hty => .look ?_
  have hname : [bump].Forall (Follows R) := hR.bump
  -- the header ends where the type starts
  have hstart : FollowsAt R start (seq [keep header, keep ty, bump]) rest :=
    hR.keep_seq hheader (hR.held_seq hty hname)
  have hmember {kind : NodeKind} {ps : List Production} (hk : kind.isBinary = false)
      (hps : ps.Forall (Follows R)) :
      FollowsAt R start (node kind (seq (seq [keep header, keep ty, bump] :: ps))) rest :=
    hR.nodeAt hk (hR.seqAt hstart hps)
  have hbody := follows_methodBody hR hg hops
  have haccessors : Follows R (look fun s =>
      if atKind .arrow s then seq [arrowClause g, semicolon] else accessorList g) :=
    .look fun s => .ite (fun _ => follows_arrowBody hR hops s)
      fun _ => follows_accessorList hR hg hops s
  have hvalue : Follows R (seq [equalsValue g, semicolon]) :=
    hR.seq ⟨follows_equalsValue hR hg, follows_semicolon hR⟩
  have hmethod : [typeParameters g, parameterList g, constraints, methodBody g].Forall (Follows R) :=
    ⟨follows_typeParameters hR hg, follows_parameterList hR hg, follows_constraints hR, hbody⟩
  refine .ite (fun _ => hmember rfl ⟨follows_bracketedParameterList hR hg, haccessors⟩) fun _ =>
    .ite (fun _ => hmember rfl ⟨hR.many hR.bump, follows_parameterList hR hg, hbody⟩) fun _ =>
    .ite (fun _ => .fail) fun _ => ?_
  split
  case h_1 => exact hmember rfl hmethod
  case h_2 => exact hmember rfl hmethod
  case h_3 => exact hmember rfl ⟨follows_accessorList hR hg hops, hR.whenever hvalue⟩
  case h_4 => exact hmember rfl ⟨follows_arrowClause hR hops, follows_semicolon hR⟩
  case h_5 =>
    have hdeclarators : [declarators g].Forall (Follows R) := follows_declarators hR hg
    have hvariables : FollowsAt R s (node .variableDeclaration (seq [keep ty, declarators g])) rest :=
      hR.nodeAt rfl (hR.held_seq hty hdeclarators)
    exact hR.nodeAt rfl (hR.keep_seq hheader (hR.seqAt hvariables (follows_semicolon hR)))

end

section
include hg hops

theorem follows_member : Follows R (member g) := by
  have hheader : Follows R (seq [attributes, modifiers]) :=
    hR.seq ⟨follows_attributes hR, follows_modifiers hR⟩
  intro start
  refine (hheader start).extend fun header s hheader => .look ?_
  split
  case h_1 => exact follows_typeDeclaration hR hg hheader rfl
  case h_2 => exact follows_typeDeclaration hR hg hheader rfl
  case h_3 => exact follows_typeDeclaration hR hg hheader rfl
  case h_4 => exact follows_enumDeclaration hR hg hheader
  case h_5 => exact follows_delegateDeclaration hR hg hheader
  case h_6 =>
    exact .ite (fun _ => follows_recordDeclaration hR hg hheader) fun _ =>
      .ite (fun _ => follows_constructorDeclaration hR hg hops hheader) fun _ =>
      .ite (fun _ => follows_conversionDeclaration hR hg hops hheader) fun _ =>
      follows_typedMember hR hg hops hheader

/-! ## Namespaces -/

omit hops in
theorem follows_usingDirective : Follows R (usingDirective g) := by
  have halias : Follows R (seq [bump, type g]) := hR.seq ⟨hR.bump, follows_type hR hg⟩
  exact hR.node rfl (hR.seq ⟨hR.bump, hR.eat, follows_qualifiedName hR, hR.whenever halias,
    follows_semicolon hR⟩)

omit hops in
theorem follows_namespaceDeclaration : Follows R (namespaceDeclaration g) := by
  have hname : Follows R (seq [bump, qualifiedName]) :=
    hR.seq ⟨hR.bump, follows_qualifiedName hR⟩
  intro start
  refine (hname start).extend fun name s hname => .look (.ite (fun _ => ?_) fun _ => ?_)
  · exact hR.nodeAt rfl (hR.held_seq hname ⟨hR.bump, hg.members _⟩)
  · exact hR.nodeAt rfl (hR.held_seq hname ⟨hR.expect, hg.members _, hR.expect, hR.eat⟩)

theorem follows_members (stop : TokenKind) : Follows R (members g stop) :=
  hR.many (.look fun s => .ite (fun _ => follows_usingDirective hR hg s) fun _ =>
    .ite (fun _ => follows_namespaceDeclaration hR hg s) fun _ => follows_member hR hg hops s)

end

end Grammar

open Grammar

/-! ## Source files -/

variable {R : Reading}

/-- Where the reading holds of all references, one level more has it for all productions. -/
theorem Inner.Follows.next {n : Nat} (hR : R.Composes) (hg : (Inner.level n).Follows R)
    (hops : (Inner.level n).Operators R) : (Inner.level (n + 1)).Follows R where
  type := follows_type hR hg
  expression := hops.expression
  unary := follows_unary hR hg
  coalesce := hops.coalesce
  binary := hops.binary
  pattern := follows_pattern hR hg hops
  negatedPattern := follows_negatedPattern hR hg hops
  initializer := follows_initializer hR hg
  block := follows_block hR hg
  statement := follows_statement hR hg hops
  member := follows_member hR hg hops
  members := follows_members hR hg hops

theorem follows_level (hR : R.Composes)
    (hops : ∀ n, (Inner.level n).Follows R → (Inner.level n).Operators R) (n : Nat) :
    (Inner.level n).Follows R := by
  induction n with
  | zero =>
    exact ⟨.fail, .fail, .fail, .fail, fun _ => .fail, .fail, .fail, .fail, .fail, .fail, .fail,
      fun _ => .fail⟩
  | succ n ih => exact ih.next hR (hops n ih)

/-- The tree of a compilation unit is made of what was read from the first lexeme on. -/
theorem follows_compilationUnit (hR : R.Composes)
    (hops : ∀ n, (Inner.level n).Follows R → (Inner.level n).Operators R) {s : List Lexeme}
    {t : Tree} (h : compilationUnit s = .ok t) : ∃ rest, R s [t] rest := by
  have hunit : Follows R (seq [(Inner.level (s.length + 1)).members .endOfFile, bump]) :=
    hR.seq ⟨(follows_level hR hops _).members _, hR.bump⟩
  unfold compilationUnit at h
  split at h
  · cases h
  · rename_i ts rest hok
    obtain rfl := Except.ok.inj h
    exact ⟨rest, hR.wraps rfl s ts rest (hunit s ts rest hok)⟩

end SharpLint
