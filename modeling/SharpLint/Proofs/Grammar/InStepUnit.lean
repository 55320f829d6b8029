import SharpLint.Grammar.Declaration
import SharpLint.Proofs.Grammar.InStepExpression

/-!
# Statements and declarations in step

The rest of the grammar. A production whose first lexeme is certain to be there is in step for one more
lexeme than what it refers to; the members of a namespace may be none.
-/

namespace SharpLint

open Production

namespace Grammar

variable {n : Nat} {s : List Lexeme}

/-! ## Statements -/

theorem inStep_semicolon : InStep n 0 semicolon semicolon := .sign nofun

section

variable {g g' : Inner} (hg : g.InStep n g')
include hg

theorem inStep_declarators : InStep (n + 1) 1 (declarators g) (declarators g') :=
  .separated (.node (.seq (.expect nofun) ⟨inStep_defaultValue hg, trivial⟩))

theorem inStep_variableDeclaration :
    InStep (n + 1) 1 (variableDeclaration g) (variableDeclaration g') :=
  .node (.seq (inStep_type hg) ⟨(inStep_declarators hg).part, trivial⟩)

theorem looksLikeVariables_inStep (hs : s.length < n + 1) :
    looksLikeVariables g s = looksLikeVariables g' s := by
  rw [looksLikeVariables, looksLikeVariables, afterType?_inStep hg hs]

theorem inStep_block : InStep (n + 1) 1 (block g) (block g') :=
  .node (.seq (.expect nofun) ⟨.manyPart hg.statement, .sign nofun, trivial⟩)

theorem inStep_condition : InStep n 0 (condition g) (condition g') :=
  .all ⟨.sign nofun, (inStep_expression hg).part, .sign nofun, trivial⟩

theorem inStepReady_ifStatement : InStepReady n (ifStatement g) (ifStatement g') :=
  .node (.seq .bump ⟨inStep_condition hg, hg.statement,
    .wheneverPart (.node (.all ⟨.bump, hg.statement, trivial⟩)), trivial⟩)

theorem inStepReady_forStatement : InStepReady n (forStatement g) (forStatement g') := by
  have hexpressions : InStep n 0 (separated (expression g)) (separated (expression g')) :=
    .separatedPart (inStep_expression hg).part
  refine .node (.seq .bump ⟨.sign nofun, .look fun s hs => ?_, inStep_semicolon,
    .wheneverPart (inStep_expression hg).part, inStep_semicolon, .wheneverPart hexpressions,
    .sign nofun, hg.statement, trivial⟩)
  rw [looksLikeVariables_inStep hg (Nat.lt_succ_of_lt hs)]
  exact .ite (fun _ => InStep.empty s hs) fun _ =>
    .ite (fun _ => (inStep_variableDeclaration hg).part s hs) fun _ => hexpressions s hs

theorem inStepReady_foreachStatement : InStepReady n (foreachStatement g) (foreachStatement g') :=
  .node (.seq .bump ⟨.sign nofun, (inStep_type hg).part, .sign nofun, .sign nofun,
    (inStep_expression hg).part, .sign nofun, hg.statement, trivial⟩)

omit hg in
theorem ready_of_atSwitchLabel (s : List Lexeme) (h : atSwitchLabel s = true) : Ready s := by
  rcases Bool.or_eq_true_iff.mp h with h | h
  · exact ready_of_atKeyword h
  · exact ready_of_atKeyword (Bool.and_eq_true_iff.mp h).1

theorem inStepReady_switchLabel : InStepReady n (switchLabel g) (switchLabel g') :=
  .look fun _ hs hready => .ite
    (fun _ => .node (.seq hs (.bump hready) ⟨.bump, trivial⟩))
    fun _ => .node (.seq hs (.bump hready)
      ⟨(inStep_pattern hg).part, inStep_whenClause hg, .sign nofun, trivial⟩)

/-- A section starts with a label. -/
theorem inStep_switchSection : InStep (n + 1) 1 (switchSection g) (switchSection g') := by
  refine .look fun s hs => .ite (fun hlabel => .node ?_) fun _ => .fail
  have hlabels := InStepAt.many ready_of_atSwitchLabel (inStepReady_switchLabel hg) hs hlabel
  exact hlabels.seq hs ⟨.manyPart hg.statement, trivial⟩

theorem inStepReady_switchStatement : InStepReady n (switchStatement g) (switchStatement g') :=
  .node (.seq .bump ⟨inStep_condition hg, .sign nofun, .manyPart (inStep_switchSection hg).part,
    .sign nofun, trivial⟩)

theorem inStepReady_catchClause : InStepReady n (catchClause g) (catchClause g') :=
  .node (.seq .bump
    ⟨.wheneverPart (.node (.all ⟨.bump, (inStep_type hg).part, .eat, .sign nofun, trivial⟩)),
      inStep_whenClause hg, (inStep_block hg).part, trivial⟩)

theorem inStepReady_tryStatement : InStepReady n (tryStatement g) (tryStatement g') := by
  refine .node (.seq .bump ⟨(inStep_block hg).part, .look fun s hs => .ite (fun _ => ?_) fun _ => .fail,
    trivial⟩)
  exact .all hs ⟨.many (fun _ => ready_of_atKeyword) (inStepReady_catchClause hg),
    .wheneverPart (.node (.all ⟨.bump, (inStep_block hg).part, trivial⟩)), trivial⟩

theorem inStepReady_usingStatement : InStepReady n (usingStatement g) (usingStatement g') := by
  unfold usingStatement
  refine .look fun s hs hready => .ite
    (fun _ => .node (.seq hs (.bump hready)
      ⟨.bump, .look fun s hs => ?_, .sign nofun, hg.statement, trivial⟩))
    fun _ => .node (.seq hs (.bump hready)
      ⟨(inStep_variableDeclaration hg).part, inStep_semicolon, trivial⟩)
  rw [looksLikeVariables_inStep hg (Nat.lt_succ_of_lt hs)]
  exact .ite (fun _ => (inStep_variableDeclaration hg).part s hs) fun _ =>
    (inStep_expression hg).part s hs

theorem inStepReady_yieldStatement : InStepReady n (yieldStatement g) (yieldStatement g') :=
  .look fun _ hs hready => .ite
    (fun _ => .node (.seq hs (.bump hready)
      ⟨.bump, (inStep_expression hg).part, inStep_semicolon, trivial⟩))
    fun _ => .node (.seq hs (.bump hready) ⟨.bump, inStep_semicolon, trivial⟩)

theorem inStep_plainStatement : InStep (n + 1) 1 (plainStatement g) (plainStatement g') := by
  refine .look fun s hs => ?_
  rw [looksLikeVariables_inStep hg hs]
  refine .ite (fun hyield => ?_) fun _ => .ite (fun _ => .node ?_) fun _ => .node ?_
  · exact inStepReady_yieldStatement hg s hs (ready_of_atWord (Bool.and_eq_true_iff.mp hyield).1)
  · exact .seq hs (inStep_variableDeclaration hg s hs) ⟨inStep_semicolon, trivial⟩
  · exact .seq hs (inStep_expression hg s hs) ⟨inStep_semicolon, trivial⟩

theorem inStep_statement : InStep (n + 1) 1 (statement g) (statement g') := by
  have hvalue : InStep n 0 (whenever (fun s => !atKind .semicolon s) (expression g))
      (whenever (fun s => !atKind .semicolon s) (expression g')) :=
    .wheneverPart (inStep_expression hg).part
  unfold statement
  refine .look fun s hs => ?_
  split
  case h_17 => exact inStep_plainStatement hg s hs
  all_goals
    rename_i hkind
    have hready : Ready s := ready_of_kind hkind nofun
  case h_1 => exact inStep_block hg s hs
  case h_2 => exact .node (.bump hready)
  case h_3 => exact .node (.seq hs (.bump hready) ⟨hvalue, inStep_semicolon, trivial⟩)
  case h_4 => exact .node (.seq hs (.bump hready) ⟨hvalue, inStep_semicolon, trivial⟩)
  case h_5 => exact inStepReady_ifStatement hg s hs hready
  case h_6 => exact .node (.seq hs (.bump hready) ⟨inStep_condition hg, hg.statement, trivial⟩)
  case h_7 => exact inStepReady_forStatement hg s hs hready
  case h_8 => exact inStepReady_foreachStatement hg s hs hready
  case h_9 => exact .node (.seq hs (.bump hready) ⟨inStep_semicolon, trivial⟩)
  case h_10 => exact .node (.seq hs (.bump hready) ⟨inStep_semicolon, trivial⟩)
  case h_11 =>
    exact .node (.seq hs (.bump hready)
      ⟨hg.statement, .sign nofun, inStep_condition hg, inStep_semicolon, trivial⟩)
  case h_12 => exact .node (.seq hs (.bump hready) ⟨inStep_condition hg, hg.statement, trivial⟩)
  case h_13 => exact inStepReady_switchStatement hg s hs hready
  case h_14 => exact inStepReady_tryStatement hg s hs hready
  case h_15 => exact inStepReady_usingStatement hg s hs hready
  case h_16 =>
    exact .node (.seq hs (.node (.bump hready))
      ⟨(inStep_variableDeclaration hg).part, inStep_semicolon, trivial⟩)

/-! ## Parts of declarations -/

theorem inStep_typeParameters : InStep n 0 (typeParameters g) (typeParameters g') :=
  .whenever (ready_at .lt nofun) (inStepReady_typeArguments hg)

theorem inStep_baseList : InStep n 0 (baseList g) (baseList g') :=
  .wheneverPart (.node (.all ⟨.bump, .separatedPart (.all
    ⟨(inStep_type hg).part, .wheneverPart (inStep_argumentList hg).part, trivial⟩), trivial⟩))

omit hg in
theorem inStep_constraints : InStep n 0 constraints constraints := .wheneverPart (.manyPart .bump)

theorem inStep_arrowClause : InStep n 0 (arrowClause g) (arrowClause g') :=
  .node (.all ⟨.bump, (inStep_expression hg).part, trivial⟩)

theorem inStep_arrowBody : InStep n 0 (seq [arrowClause g, semicolon]) (seq [arrowClause g', semicolon]) :=
  .all ⟨inStep_arrowClause hg, inStep_semicolon, trivial⟩

theorem inStep_methodBody : InStep n 0 (methodBody g) (methodBody g') :=
  .look fun s hs => .ite (fun _ => (inStep_block hg).part s hs) fun _ =>
    .ite (fun _ => inStep_arrowBody hg s hs) fun _ => .sign nofun

theorem inStep_accessorList : InStep n 0 (accessorList g) (accessorList g') :=
  .node (.all ⟨.bump, .manyPart (.node (.all
    ⟨inStep_attributes, inStep_modifiers, .sign nofun, inStep_methodBody hg, trivial⟩)), .sign nofun,
    trivial⟩)

theorem inStep_typeBody : InStep n 0 (typeBody g) (typeBody g') :=
  .all ⟨.sign nofun, .manyPart hg.member, .sign nofun, .eat, trivial⟩

/-! ## Types and members -/

section

variable (header : List Tree)

theorem inStepReady_typeDeclaration (kind : NodeKind) :
    InStepReady n (typeDeclaration g kind header) (typeDeclaration g' kind header) :=
  .node fun _ hs hready => .keep_seq (.seq hs (.bump hready) ⟨.sign nofun, inStep_typeParameters hg,
    inStep_baseList hg, inStep_constraints, inStep_typeBody hg, trivial⟩)

theorem inStepReady_recordDeclaration :
    InStepReady n (recordDeclaration g header) (recordDeclaration g' header) :=
  .look fun _ hs hready => .node (.keep_seq (.seq hs (.bump hready) ⟨.wheneverPart .bump, .sign nofun,
    inStep_typeParameters hg, .wheneverPart (inStep_parameterList hg).part, inStep_baseList hg,
    inStep_constraints, .look fun s hs =>
      .ite (fun _ => InStep.bump s hs) fun _ => inStep_typeBody hg s hs, trivial⟩))

theorem inStepReady_enumDeclaration :
    InStepReady n (enumDeclaration g header) (enumDeclaration g' header) :=
  .node fun _ hs hready => .keep_seq (.seq hs (.bump hready) ⟨.sign nofun, inStep_baseList hg,
    .sign nofun,
    .items (.node (.all ⟨inStep_attributes, .sign nofun, inStep_defaultValue hg, trivial⟩)),
    .sign nofun, .eat, trivial⟩)

theorem inStepReady_delegateDeclaration :
    InStepReady n (delegateDeclaration g header) (delegateDeclaration g' header) :=
  .node fun _ hs hready => .keep_seq (.seq hs (.bump hready) ⟨(inStep_type hg).part, .sign nofun,
    inStep_typeParameters hg, (inStep_parameterList hg).part, inStep_constraints, inStep_semicolon,
    trivial⟩)

theorem inStepReady_constructorDeclaration :
    InStepReady n (constructorDeclaration g header) (constructorDeclaration g' header) :=
  .node fun _ hs hready => .keep_seq (.seq hs (.bump hready) ⟨(inStep_parameterList hg).part,
    .wheneverPart (.all ⟨.bump, .look fun s hs => .ite (fun _ => InStep.bump s hs) fun _ => .fail,
      (inStep_argumentList hg).part, trivial⟩), inStep_methodBody hg, trivial⟩)

theorem inStepReady_conversionDeclaration :
    InStepReady n (conversionDeclaration g header) (conversionDeclaration g' header) :=
  .node fun _ hs hready => .keep_seq (.seq hs (.bump hready) ⟨.bump, (inStep_type hg).part,
    (inStep_parameterList hg).part, inStep_methodBody hg, trivial⟩)

/-- Behind its type a member goes on in one of several ways. -/
theorem inStep_typedMember :
    InStep (n + 1) 1 (typedMember g header) (typedMember g' header) := by
  refine .extend (inStep_type hg) fun ty => .look fun s hs => ?_
  have hstart : InStep n 0 (seq [keep header, keep ty, bump]) (seq [keep header, keep ty, bump]) :=
    .all ⟨fun _ _ => .keep header, fun _ _ => .keep ty, .bump, trivial⟩
  dsimp only
  refine .ite (fun _ => .node ?_) fun _ => .ite (fun _ => .node ?_) fun _ => .ite (fun _ => .fail) fun _ => ?_
  · exact .all hs ⟨hstart, inStep_bracketedParameterList hg, .look fun s hs =>
      .ite (fun _ => inStep_arrowBody hg s hs) fun _ => inStep_accessorList hg s hs, trivial⟩
  · exact .all hs ⟨hstart, .manyPart .bump, (inStep_parameterList hg).part, inStep_methodBody hg,
      trivial⟩
  split
  case h_1 | h_2 =>
    exact .node (.all hs ⟨hstart, inStep_typeParameters hg, (inStep_parameterList hg).part,
      inStep_constraints, inStep_methodBody hg, trivial⟩)
  case h_3 =>
    exact .node (.all hs ⟨hstart, inStep_accessorList hg, .whenever (ready_at .eq nofun)
      (.seq (inStepReady_equalsValue hg) ⟨inStep_semicolon, trivial⟩), trivial⟩)
  case h_4 => exact .node (.all hs ⟨hstart, inStep_arrowClause hg, inStep_semicolon, trivial⟩)
  case h_5 =>
    exact .node (.keep_seq (.all hs ⟨.node fun _ hs =>
      .keep_seq (.all hs ⟨(inStep_declarators hg).part, trivial⟩), inStep_semicolon, trivial⟩))

end

/-- A declaration has a word or a type behind its attributes and modifiers. -/
theorem inStep_member : InStep (n + 1) 1 (member g) (member g') := by
  have hheader : InStep (n + 1) 0 (seq [attributes, modifiers]) (seq [attributes, modifiers]) :=
    .all ⟨inStep_attributes, inStep_modifiers, trivial⟩
  refine .extendAfter hheader fun header => .look fun s hs => ?_
  split
  case h_6 =>
    refine .ite (fun hrecord => ?_) fun _ => .ite (fun hname => ?_) fun _ =>
      .ite (fun hconversion => ?_) fun _ => inStep_typedMember hg header s hs
    · exact inStepReady_recordDeclaration hg header s hs
        (ready_of_atWord (Bool.and_eq_true_iff.mp hrecord).1)
    · exact inStepReady_constructorDeclaration hg header s hs
        (ready_of_atKind (Bool.and_eq_true_iff.mp hname).1 nofun)
    · refine inStepReady_conversionDeclaration hg header s hs ?_
      rcases Bool.or_eq_true_iff.mp (Bool.and_eq_true_iff.mp hconversion).1 with hword | hword
      · exact ready_of_atWord hword
      · exact ready_of_atWord hword
  all_goals
    rename_i hkind
    have hready : Ready s := ready_of_kind hkind nofun
  case h_4 => exact inStepReady_enumDeclaration hg header s hs hready
  case h_5 => exact inStepReady_delegateDeclaration hg header s hs hready
  all_goals exact inStepReady_typeDeclaration hg header _ s hs hready

/-! ## Namespaces -/

theorem inStepReady_usingDirective : InStepReady n (usingDirective g) (usingDirective g') :=
  .node (.seq .bump ⟨.eat, inStep_qualifiedName.part,
    .wheneverPart (.all ⟨.bump, (inStep_type hg).part, trivial⟩), inStep_semicolon, trivial⟩)

theorem inStepReady_namespaceDeclaration :
    InStepReady n (namespaceDeclaration g) (namespaceDeclaration g') := by
  have hname : InStepReady n (seq [bump, qualifiedName]) (seq [bump, qualifiedName]) :=
    .seq .bump ⟨inStep_qualifiedName.part, trivial⟩
  refine .extend hname fun name => .look fun s hs => .ite (fun _ => .node ?_) fun _ => .node ?_
  · exact .keep_seq (.all hs ⟨.bump, hg.members _, trivial⟩)
  · exact .keep_seq (.all hs ⟨.sign nofun, hg.members _, .sign nofun, .eat, trivial⟩)

theorem inStep_namespaceMember : InStep (n + 1) 1 (namespaceMember g) (namespaceMember g') := by
  refine .look fun s hs => .ite (fun husing => ?_) fun _ => .ite (fun hnamespace => ?_) fun _ => ?_
  · exact inStepReady_usingDirective hg s hs (ready_of_atKeyword husing)
  · exact inStepReady_namespaceDeclaration hg s hs (ready_of_atKeyword hnamespace)
  · exact inStep_member hg s hs

theorem inStep_members (stop : TokenKind) : InStep (n + 1) 0 (members g stop) (members g' stop) :=
  .manyPart ((inStep_namespaceMember hg).mono (Nat.le_refl _) (Nat.zero_le 1))

end

end Grammar

end SharpLint
