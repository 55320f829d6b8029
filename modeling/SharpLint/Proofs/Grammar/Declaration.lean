import SharpLint.Grammar.Declaration
import SharpLint.Proofs.Grammar.Expression

/-!
# Statements and declarations are exact

The rest of the grammar, in its order. Three productions read a lexeme that they do not check:
behind `yield` and `default` it was looked at before, behind a conversion's first word it has a text
and so is not the end (`atConversion_readable`), and where the accessors of an indexer are missing
at the end of the text, the brace that would close them is missing as well
(`exact_accessorList`).
-/

namespace SharpLint.Grammar

open Production

/-! ## Statements -/

theorem exact_semicolon : Exact semicolon := .expect nofun

section
variable {g : Inner} (hg : g.Exact) {s : List Lexeme}
include hg

theorem exact_declarators : Exact (declarators g) :=
  .separated (.node (.seq ⟨.expect nofun, exact_defaultValue hg⟩))

theorem exact_variableDeclaration : Exact (variableDeclaration g) :=
  .node (.seq ⟨exact_type hg, exact_declarators hg⟩)

theorem exact_block : Exact (block g) :=
  .node (.seq ⟨.expect nofun, .many fun s _ => hg.statement s, .expect nofun⟩)

theorem exact_condition : Exact (condition g) :=
  .seq ⟨.expect nofun, exact_expression hg, .expect nofun⟩

theorem exactAt_ifStatement (hs : Readable s) : ExactAt [] (ifStatement g) s := by
  refine .node ((ExactAt.bump hs).seq ⟨exact_condition hg, hg.statement,
    .whenever fun s helse => .node ?_⟩)
  exact (ExactAt.bump (readable_of_atKeyword helse)).seq hg.statement

theorem exactAt_forStatement (hs : Readable s) : ExactAt [] (forStatement g) s := by
  refine .node ((ExactAt.bump hs).seq ⟨.expect nofun, .look fun s => ?_, exact_semicolon,
    .whenever fun s _ => exact_expression hg s, exact_semicolon,
    .whenever fun s _ => Exact.separated (exact_expression hg) s, .expect nofun, hg.statement⟩)
  split
  · exact Exact.empty s
  split
  · exact exact_variableDeclaration hg s
  · exact Exact.separated (exact_expression hg) s

theorem exactAt_foreachStatement (hs : Readable s) : ExactAt [] (foreachStatement g) s :=
  .node ((ExactAt.bump hs).seq ⟨.expect nofun, exact_type hg, .expect nofun, .expect nofun,
    exact_expression hg, .expect nofun, hg.statement⟩)

theorem exactAt_switchLabel (hs : atSwitchLabel s = true) : ExactAt [] (switchLabel g) s := by
  refine .look ?_
  split
  · rename_i hdefault
    have hcolon : (kindAhead 1 s == .colon) = true := by
      simp only [atKeyword, atKind, beq_iff_eq] at hdefault
      simpa [atSwitchLabel, atKeyword, atKind, hdefault] using hs
    have hs' : Readable (s.drop 1) := readable_ahead hcolon (by decide)
    exact .node (.bump_bump (readable_of_atKeyword hdefault) hs' trivial)
  · rename_i hdefault
    have hcase : atKeyword .kwCase s = true := by simpa [atSwitchLabel, hdefault] using hs
    exact .node ((ExactAt.bump (readable_of_atKeyword hcase)).seq
      ⟨exact_pattern hg, exact_whenClause hg, .expect (by decide)⟩)

theorem exact_switchSection : Exact (switchSection g) := by
  refine .look fun s => ?_
  split
  · have hlabels : Exact (many atSwitchLabel (switchLabel g)) :=
      .many fun _ hs => exactAt_switchLabel hg hs
    have hbody : Exact (many (fun s => before .closeBrace s && !atSwitchLabel s) g.statement) :=
      .many fun s _ => hg.statement s
    exact .node ((hlabels s).seq hbody)
  · exact Exact.fail s

theorem exactAt_switchStatement (hs : Readable s) : ExactAt [] (switchStatement g) s :=
  .node ((ExactAt.bump hs).seq ⟨exact_condition hg, .expect nofun,
    .many fun s _ => exact_switchSection hg s, .expect nofun⟩)

theorem exactAt_catchClause (hs : Readable s) : ExactAt [] (catchClause g) s := by
  refine .node ((ExactAt.bump hs).seq ⟨.whenever fun s hopen => .node ?_, exact_whenClause hg,
    exact_block hg⟩)
  exact (ExactAt.bump (readable_of_atKind hopen nofun)).seq
    ⟨exact_type hg, .eat nofun, .expect nofun⟩

theorem exactAt_tryStatement (hs : Readable s) : ExactAt [] (tryStatement g) s := by
  refine .node ((ExactAt.bump hs).seq ⟨exact_block hg, .look fun s => ?_⟩)
  split
  · have hcatches : Exact (many (atKeyword .kwCatch) (catchClause g)) :=
      .many fun s hs => exactAt_catchClause hg (readable_of_atKeyword hs)
    have hfinally : Exact (whenever (atKeyword .kwFinally)
        (node .finallyClause (seq [bump, block g]))) :=
      .whenever fun s hs =>
        .node ((ExactAt.bump (readable_of_atKeyword hs)).seq (exact_block hg))
    exact (hcatches s).seq hfinally
  · exact Exact.fail s

theorem exactAt_usingStatement (hs : Readable s) : ExactAt [] (usingStatement g) s := by
  unfold usingStatement
  refine .look ?_
  split
  · rename_i hopen
    have hresource : Exact (look fun s =>
        if looksLikeVariables g s then variableDeclaration g else expression g) := by
      refine .look fun s => ?_
      split
      · exact exact_variableDeclaration hg s
      · exact exact_expression hg s
    exact .node (.bump_bump hs (readable_ahead hopen nofun)
      ⟨hresource, .expect nofun, hg.statement⟩)
  · exact .node ((ExactAt.bump hs).seq ⟨exact_variableDeclaration hg, exact_semicolon⟩)

theorem exactAt_yieldStatement (hs : atYield s = true) : ExactAt [] (yieldStatement g) s := by
  obtain ⟨hyield, hnext⟩ := Bool.and_eq_true_iff.mp hs
  have hs' : Readable (s.drop 1) := by
    rcases Bool.or_eq_true_iff.mp hnext with h | h
    · exact readable_ahead h nofun
    · exact readable_ahead h nofun
  refine .look ?_
  split
  · exact .node (.bump_bump (readable_of_atWord hyield) hs' ⟨exact_expression hg, exact_semicolon⟩)
  · exact .node (.bump_bump (readable_of_atWord hyield) hs' exact_semicolon)

theorem exact_plainStatement : Exact (plainStatement g) := by
  refine .look fun s => ?_
  split
  · rename_i hyield
    exact exactAt_yieldStatement hg hyield
  split
  · exact .node ((exact_variableDeclaration hg s).seq exact_semicolon)
  · exact .node ((exact_expression hg s).seq exact_semicolon)

theorem exact_statement : Exact (statement g) := by
  unfold statement
  refine .look fun s => ?_
  have hvalue : Exact (whenever (fun s => !atKind .semicolon s) (expression g)) :=
    .whenever fun s _ => exact_expression hg s
  split <;> rename_i hk
  case h_17 => exact exact_plainStatement hg s
  all_goals have hs : Readable s := readable_of_kind hk nofun
  case h_1 => exact exact_block hg s
  case h_2 => exact .node (.bump hs)
  case h_3 => exact .node ((ExactAt.bump hs).seq ⟨hvalue, exact_semicolon⟩)
  case h_4 => exact .node ((ExactAt.bump hs).seq ⟨hvalue, exact_semicolon⟩)
  case h_5 => exact exactAt_ifStatement hg hs
  case h_6 => exact .node ((ExactAt.bump hs).seq ⟨exact_condition hg, hg.statement⟩)
  case h_7 => exact exactAt_forStatement hg hs
  case h_8 => exact exactAt_foreachStatement hg hs
  case h_9 => exact .node ((ExactAt.bump hs).seq exact_semicolon)
  case h_10 => exact .node ((ExactAt.bump hs).seq exact_semicolon)
  case h_11 =>
    exact .node ((ExactAt.bump hs).seq
      ⟨hg.statement, .expect nofun, exact_condition hg, exact_semicolon⟩)
  case h_12 => exact .node ((ExactAt.bump hs).seq ⟨exact_condition hg, hg.statement⟩)
  case h_13 => exact exactAt_switchStatement hg hs
  case h_14 => exact exactAt_tryStatement hg hs
  case h_15 => exact exactAt_usingStatement hg hs
  case h_16 =>
    exact .node ((ExactAt.node (.bump hs)).seq ⟨exact_variableDeclaration hg, exact_semicolon⟩)

/-! ## Parts of declarations -/

theorem exact_typeParameters : Exact (typeParameters g) :=
  .whenever fun _ hs => exactAt_typeArguments hg (readable_of_atKind hs nofun)

theorem exact_baseList : Exact (baseList g) := by
  refine .whenever fun s hs => .node ((ExactAt.bump (readable_of_atKind hs nofun)).seq ?_)
  have hbase : Exact (seq [type g, whenever (atKind .openParen) (argumentList g)]) :=
    .seq ⟨exact_type hg, .whenever fun s _ => exact_argumentList hg s⟩
  exact Exact.separated hbase

omit hg in
theorem exact_constraints : Exact constraints := by
  refine .whenever fun s _ => Exact.many (fun s hs => .bump ?_) s
  refine readable_of_kindAhead (n := 0) fun hend => ?_
  simp [atBody, atEnd, atKind, hend] at hs

theorem exactAt_arrowClause (hs : Readable s) : ExactAt [] (arrowClause g) s :=
  .node ((ExactAt.bump hs).seq (exact_expression hg))

theorem exact_methodBody : Exact (methodBody g) := by
  refine .look fun s => ?_
  split
  · exact exact_block hg s
  split
  · rename_i harrow
    exact (exactAt_arrowClause hg (readable_of_atKind harrow nofun)).seq exact_semicolon
  · have hbody : Exact (expect .semicolon "method body or `;`") := .expect nofun
    exact hbody s

/-- At the end of the text the closing brace is missing, so that nothing is yielded there. -/
theorem exact_accessorList : Exact (accessorList g) := by
  intro s
  by_cases hs : Readable s
  · have haccessor : Exact (node .accessorDeclaration (seq [attributes, modifiers,
        expect .identifier "`get`, `set` or `init`", methodBody g])) :=
      .node (.seq ⟨exact_attributes, exact_modifiers, .expect nofun, exact_methodBody hg⟩)
    exact .node ((ExactAt.bump hs).seq ⟨.many fun s _ => haccessor s, .expect nofun⟩)
  · intro ts rest h
    simp only [Readable, not_forall, not_not] at hs
    obtain ⟨l, hl, hend⟩ := hs
    obtain ⟨s', rfl⟩ : ∃ s', s = l :: s' := ⟨s.tail, (List.cons_head?_tail hl).symm⟩
    simp [accessorList, node, seq, andThen, bump, hend, many, manyUpTo, whenever, look, before,
      atEnd, atKind, kindAhead, empty, keep, expect, fail] at h

theorem exact_typeBody : Exact (typeBody g) :=
  .seq ⟨.expect nofun, .many fun s _ => hg.member s, .expect nofun, .eat nofun⟩

/-! ## Types and members -/

section
variable {header : List Tree}

theorem exactAt_typeDeclaration {kind : NodeKind} (hs : Readable s) :
    ExactAt header (typeDeclaration g kind header) s :=
  .node (.held_seq ((ExactAt.bump hs).seq ⟨.expect nofun, exact_typeParameters hg,
    exact_baseList hg, exact_constraints, exact_typeBody hg⟩))

theorem exactAt_recordDeclaration (hs : Readable s) :
    ExactAt header (recordDeclaration g header) s := by
  refine .look (.node (.held_seq ((ExactAt.bump hs).seq ⟨.whenever fun s hs => .bump ?_,
    .expect nofun, exact_typeParameters hg, .whenever fun s _ => exact_parameterList hg s,
    exact_baseList hg, exact_constraints, .look fun s => ?_⟩)))
  · rcases Bool.or_eq_true_iff.mp hs with h | h
    · exact readable_of_atKeyword h
    · exact readable_of_atKeyword h
  · split
    · rename_i hsemicolon
      exact .bump (readable_of_atKind hsemicolon nofun)
    · exact exact_typeBody hg s

theorem exactAt_enumDeclaration (hs : Readable s) :
    ExactAt header (enumDeclaration g header) s := by
  have hmember : Exact (node .enumMemberDeclaration (seq [attributes,
      expect .identifier "enum member", whenever (atKind .eq) (equalsValue g)])) :=
    .node (.seq ⟨exact_attributes, .expect nofun, exact_defaultValue hg⟩)
  exact .node (.held_seq ((ExactAt.bump hs).seq ⟨.expect nofun, exact_baseList hg, .expect nofun,
    .items hmember, .expect nofun, .eat nofun⟩))

theorem exactAt_delegateDeclaration (hs : Readable s) :
    ExactAt header (delegateDeclaration g header) s :=
  .node (.held_seq ((ExactAt.bump hs).seq ⟨exact_type hg, .expect nofun, exact_typeParameters hg,
    exact_parameterList hg, exact_constraints, exact_semicolon⟩))

theorem exactAt_constructorDeclaration (hs : Readable s) :
    ExactAt header (constructorDeclaration g header) s := by
  have htarget : Exact (look fun s =>
      if atKeyword .kwThis s || atKeyword .kwBase s then bump else fail "`base` or `this`") := by
    refine .look fun s => ?_
    split
    · rename_i h
      rcases Bool.or_eq_true_iff.mp h with h | h
      · exact .bump (readable_of_atKeyword h)
      · exact .bump (readable_of_atKeyword h)
    · exact Exact.fail s
  refine .node (.held_seq ((ExactAt.bump hs).seq ⟨exact_parameterList hg,
    .whenever fun s hcolon => ?_, exact_methodBody hg⟩))
  exact (ExactAt.bump (readable_of_atKind hcolon nofun)).seq ⟨htarget, exact_argumentList hg⟩

omit hg in
theorem atConversion_readable (h : atConversion s = true) (hs : EndsOnce s) :
    Readable s ∧ Readable (s.drop 1) := by
  obtain ⟨hword, hoperator⟩ := Bool.and_eq_true_iff.mp h
  refine ⟨?_, fun l hl hend => ?_⟩
  · rcases Bool.or_eq_true_iff.mp hword with h | h
    · exact readable_of_atWord h
    · exact readable_of_atWord h
  · -- the end of the text has an empty text, and this lexeme is spelled `operator`
    obtain ⟨s', hs'⟩ : ∃ s', s.drop 1 = l :: s' := ⟨_, (List.cons_head?_tail hl).symm⟩
    have htail : EndsOnce (l :: s') := hs' ▸ (List.take_append_drop 1 s ▸ hs : EndsOnce _).right
    have htext : l.token.text = "operator" := by simpa [hs'] using hoperator
    simp [(htail.1 hend).2] at htext

theorem exactAt_conversionDeclaration (h : atConversion s = true) :
    ExactAt header (conversionDeclaration g header) s := by
  intro ts rest hok hends
  obtain ⟨hs, hs'⟩ := atConversion_readable h hends
  have hexact : ExactAt header (conversionDeclaration g header) s :=
    .node (.held_seq (.bump_bump hs hs'
      ⟨exact_type hg, exact_parameterList hg, exact_methodBody hg⟩))
  exact hexact ts rest hok hends

omit hg in
theorem exact_operatorSigns : Exact (many (before .openParen) bump) :=
  .many fun _ hs => .bump (readable_of_before hs)

omit hg in
theorem memberStart_eq {ty ts : List Tree} {rest : List Lexeme} (hs : Readable s)
    (h : seq [keep header, keep ty, bump] s = .ok (ts, rest)) : rest = s.drop 1 := by
  obtain ⟨_, _, _, hheader, htyped, -⟩ := andThen_eq_ok h
  obtain ⟨-, rfl⟩ := keep_eq_ok hheader
  obtain ⟨_, _, _, hty, hnamed, -⟩ := andThen_eq_ok htyped
  obtain ⟨-, rfl⟩ := keep_eq_ok hty
  obtain ⟨_, _, _, hbump, hend, -⟩ := andThen_eq_ok hnamed
  obtain ⟨-, rfl⟩ := keep_eq_ok hend
  exact (bump_eq hs hbump).1

/-- Behind the type, the trees held are the attributes and modifiers and the type. -/
theorem exactAt_typedMember : ExactAt header (typedMember g header) s := by
  refine (exact_type hg s).extend_held fun ty s _ => .look ?_
  have hstart (hs : Readable s) : ExactAt (header ++ ty) (seq [keep header, keep ty, bump]) s := by
    have hname : ExactAt [] (seq [bump]) s := (ExactAt.bump hs).seq trivial
    exact .keep_seq header (.held_seq hname)
  have harrow : Exact (look fun s =>
      if atKind .arrow s then seq [arrowClause g, semicolon] else accessorList g) := by
    refine .look fun s => ?_
    split
    · rename_i harrow
      exact (exactAt_arrowClause hg (readable_of_atKind harrow nofun)).seq exact_semicolon
    · exact exact_accessorList hg s
  dsimp only
  split
  · rename_i h
    obtain ⟨hthis, hopen⟩ := Bool.and_eq_true_iff.mp h
    refine .node ((hstart (readable_of_atKeyword hthis)).andThen fun ts rest hok => ?_)
    rw [memberStart_eq (readable_of_atKeyword hthis) hok]
    exact (exactAt_bracketedParameterList hg (readable_ahead hopen nofun)).seq harrow
  split
  · rename_i hoperator
    exact .node ((hstart (readable_of_atWord hoperator)).seq
      ⟨exact_operatorSigns, exact_parameterList hg, exact_methodBody hg⟩)
  split
  · exact fun ts rest h => nomatch h
  rename_i hname
  have hname : atKind .identifier s = true := by simpa using hname
  have hs : Readable s := readable_of_atKind hname nofun
  split
  · exact .node ((hstart hs).seq ⟨exact_typeParameters hg, exact_parameterList hg,
      exact_constraints, exact_methodBody hg⟩)
  · exact .node ((hstart hs).seq ⟨exact_typeParameters hg, exact_parameterList hg,
      exact_constraints, exact_methodBody hg⟩)
  · refine .node ((hstart hs).seq ⟨exact_accessorList hg, .whenever fun s heq => ?_⟩)
    exact (exactAt_equalsValue hg (readable_of_atKind heq nofun)).seq exact_semicolon
  · rename_i hnext
    refine .node ((hstart hs).andThen fun ts rest hok => ?_)
    rw [memberStart_eq hs hok]
    have hnext : Readable (s.drop 1) := readable_ahead (beq_iff_eq.mpr hnext) nofun
    exact (exactAt_arrowClause hg hnext).seq exact_semicolon
  · have hvariables : ExactAt ty (node .variableDeclaration (seq [keep ty, declarators g])) s :=
      .node (.held_seq ((exact_declarators hg s).seq trivial))
    exact .node (.keep_seq header (hvariables.seq exact_semicolon))

end

theorem exact_member : Exact (member g) := by
  refine .extend (.seq ⟨exact_attributes, exact_modifiers⟩) fun header s => .look ?_
  split <;> rename_i hk
  case h_1 => exact exactAt_typeDeclaration hg (readable_of_kind hk nofun)
  case h_2 => exact exactAt_typeDeclaration hg (readable_of_kind hk nofun)
  case h_3 => exact exactAt_typeDeclaration hg (readable_of_kind hk nofun)
  case h_4 => exact exactAt_enumDeclaration hg (readable_of_kind hk nofun)
  case h_5 => exact exactAt_delegateDeclaration hg (readable_of_kind hk nofun)
  split
  · rename_i hrecord
    exact exactAt_recordDeclaration hg (readable_of_atWord (Bool.and_eq_true_iff.mp hrecord).1)
  split
  · rename_i hname
    obtain ⟨hname, -⟩ := Bool.and_eq_true_iff.mp hname
    exact exactAt_constructorDeclaration hg (readable_of_atKind hname nofun)
  split
  · rename_i hconversion
    exact exactAt_conversionDeclaration hg hconversion
  · exact exactAt_typedMember hg

/-! ## Namespaces -/

theorem exactAt_usingDirective (hs : Readable s) : ExactAt [] (usingDirective g) s := by
  refine .node ((ExactAt.bump hs).seq ⟨.eat nofun, exact_qualifiedName, .whenever fun s heq => ?_,
    exact_semicolon⟩)
  exact (ExactAt.bump (readable_of_atKind heq nofun)).seq (exact_type hg)

theorem exactAt_namespaceDeclaration (hs : Readable s) :
    ExactAt [] (namespaceDeclaration g) s := by
  have hname : ExactAt [] (seq [bump, qualifiedName]) s :=
    (ExactAt.bump hs).seq exact_qualifiedName
  refine hname.extend fun name s _ => .look ?_
  split
  · rename_i hsemicolon
    exact .node (.held_seq ((ExactAt.bump (readable_of_atKind hsemicolon nofun)).seq
      (hg.members .endOfFile)))
  · have hopen : Exact (expect .openBrace "`\x7b` or `;`") := .expect nofun
    exact .node (.held_seq ((hopen s).seq ⟨hg.members .closeBrace, .expect nofun, .eat nofun⟩))

theorem exactAt_namespaceMember : ExactAt [] (namespaceMember g) s := by
  refine .look ?_
  split
  · rename_i husing
    exact exactAt_usingDirective hg (readable_of_atKeyword husing)
  split
  · rename_i hnamespace
    exact exactAt_namespaceDeclaration hg (readable_of_atKeyword hnamespace)
  · exact exact_member hg s

theorem exact_members (stop : TokenKind) : Exact (members g stop) :=
  .many fun _ _ => exactAt_namespaceMember hg

end

end SharpLint.Grammar
