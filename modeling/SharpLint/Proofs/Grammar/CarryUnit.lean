import SharpLint.Proofs.Grammar.CarryExpression

/-!
# Statements, declarations and compilation units carry over

One lemma for each production, in the order of the grammar. Where the head of a declaration is read
without being looked at (constraints, the sign of an operator, the first token of an accessor list), it
is shown that the run goes over the site or cannot get there. The whole grammar carries over by
induction on the levels of the old run (`carried_whole`).
-/

namespace SharpLint

open Production

namespace Grammar

variable {σ : Site} (hσ : σ.Fits) {s t : List Lexeme}
include hσ

theorem carried_semicolon : Carried σ False semicolon semicolon := .expect hσ.toOpens rfl

variable {g w : Inner} (h : Inner.Carried σ g w)
include h

/-! ## Variables -/

theorem carried_declarators : Carried σ False (declarators g) (declarators w) :=
  .separated hσ.toOpens h.reads h.reads' .declarators .declarators
    (.node (.seq ⟨.expect hσ.toOpens rfl, carried_defaultValue hσ h, trivial⟩))

theorem carried_variableDeclaration : Carried σ False (variableDeclaration g) (variableDeclaration w) :=
  .node (.seq ⟨carried_readType hσ h, carried_declarators hσ h, trivial⟩)

theorem looksLikeVariables_aligned (hst : σ.Aligned s t) :
    looksLikeVariables w t = looksLikeVariables g s := by
  refine testAfterType_aligned hσ.toOpens h.readType h.readType' (fun s t hst => ?_) hst
  rw [Bool.and_or_distrib_left, Bool.and_or_distrib_left, Bool.and_or_distrib_left,
    Bool.and_or_distrib_left, hst.both hσ.toOpens rfl rfl, hst.both hσ.toOpens rfl rfl,
    hst.both hσ.toOpens rfl rfl]

omit hσ h in
theorem looksLikeVariables_ahead {whole : Prop} (hs : OperandAhead whole s) (hwhole : whole) :
    looksLikeVariables g s = false :=
  hs.testAfterType hwhole fun rest hrest => by
    rw [hrest.atKind (k := .identifier) nofun nofun nofun, Bool.false_and]

/-! ## Statements -/

theorem carried_block : Carried σ False (block g) (block w) :=
  .node (.seq ⟨.expect hσ.toOpens rfl, .many hσ.toOpens (fun _ _ hst => hst.beforeKind hσ.toOpens rfl)
    (fun _ => Repeats.blockStatements.reads h.reads) (fun _ => Repeats.blockStatements.reads h.reads')
    fun s t hst _ => h.statement s t hst, .expect hσ.toOpens rfl, trivial⟩)

theorem carried_condition : Carried σ False (condition g) (condition w) :=
  .expect_seq hσ.toOpens rfl nofun
    (fun hopener => (carries_expression_site hσ h (by rw [hopener]; rfl)).seq
      ⟨.expect hσ.toOpens rfl, trivial⟩)
    ⟨carried_expression hσ h, .expect hσ.toOpens rfl, trivial⟩

theorem carries_ifStatement (hst : σ.Aligned s t) (hs : (kindAhead 0 s).opens = false) :
    Carries σ False (ifStatement g) (ifStatement w) s t := by
  have helse : Carried σ False
      (whenever (atKeyword .kwElse) (node .elseClause (seq [bump, g.statement])))
      (whenever (atKeyword .kwElse) (node .elseClause (seq [bump, w.statement]))) :=
    .whenever (fun _ _ hst => hst.atKeyword hσ.toOpens rfl) fun s t hst hs =>
      .node ((Carries.bump_kind hσ.toOpens hst hs rfl).seq ⟨h.statement, trivial⟩)
  exact .node ((Carries.bump hσ.toOpens hst hs False.elim).seq
    ⟨carried_condition hσ h, h.statement, helse, trivial⟩)

theorem carried_expressions :
    Carried σ False (separated (expression g)) (separated (expression w)) :=
  .separated hσ.toOpens h.reads h.reads' .expressions .expressions (carried_expression hσ h)

theorem carries_forStatement (hst : σ.Aligned s t) (hs : (kindAhead 0 s).opens = false) :
    Carries σ False (forStatement g) (forStatement w) s t := by
  have hstart : Carried σ False
      (look fun s =>
        if atKind .semicolon s then empty
        else if looksLikeVariables g s then variableDeclaration g
        else separated (expression g))
      (look fun s =>
        if atKind .semicolon s then empty
        else if looksLikeVariables w s then variableDeclaration w
        else separated (expression w)) := by
    refine fun s t hst => .look ?_
    rw [hst.atKind hσ.toOpens (by rfl), looksLikeVariables_aligned hσ h hst]
    exact .ite (fun _ => Carried.empty s t hst) fun _ => .ite
      (fun _ => carried_variableDeclaration hσ h s t hst) fun _ => carried_expressions hσ h s t hst
  have hcondition : Carried σ False (whenever (fun s => !atKind .semicolon s) (expression g))
      (whenever (fun s => !atKind .semicolon s) (expression w)) :=
    .whenever (fun s t hst => by rw [hst.atKind hσ.toOpens (by rfl)]) fun s t hst _ =>
      carried_expression hσ h s t hst
  have hsteps : Carried σ False (whenever (fun s => !atKind .closeParen s) (separated (expression g)))
      (whenever (fun s => !atKind .closeParen s) (separated (expression w))) :=
    .whenever (fun s t hst => by rw [hst.atKind hσ.toOpens (by rfl)]) fun s t hst _ =>
      carried_expressions hσ h s t hst
  have hhead : Carried σ False
      (seq [expect .openParen "`(`", _, semicolon, _, semicolon, _, expect .closeParen "`)`",
        g.statement])
      (seq [expect .openParen "`(`", _, semicolon, _, semicolon, _, expect .closeParen "`)`",
        w.statement]) :=
    .expect_seq hσ.toOpens rfl nofun (fun hopener => ?_)
      ⟨hstart, carried_semicolon hσ, hcondition, carried_semicolon hσ, hsteps, .expect hσ.toOpens rfl,
        h.statement, trivial⟩
  · exact .node ((Carries.bump hσ.toOpens hst hs False.elim).andThen fun _ _ s t _ _ => hhead s t)
  · have hwhole : σ.opener.token.kind.opensWhole = true := by rw [hopener]; rfl
    refine Carries.seq (.look ?_) ⟨carried_semicolon hσ, hcondition, carried_semicolon hσ, hsteps,
      .expect hσ.toOpens rfl, h.statement, trivial⟩
    rw [hσ.swap.old_ahead.atKind (by rfl), hσ.swap.new_ahead.atKind (by rfl),
      looksLikeVariables_ahead hσ.swap.old_ahead hwhole,
      looksLikeVariables_ahead hσ.swap.new_ahead hwhole]
    exact .separated hσ.toOpens h.reads h.reads' .expressions .expressions
      (carries_expression_site hσ h hwhole) (carried_expression hσ h)

theorem carries_foreachStatement (hst : σ.Aligned s t) (hs : (kindAhead 0 s).opens = false) :
    Carries σ False (foreachStatement g) (foreachStatement w) s t := by
  have hhead : Carried σ False
      (seq [expect .openParen "`(`", type g, expect .identifier "loop variable",
        expect (.keyword .kwIn) "`in`", expression g, expect .closeParen "`)`", g.statement])
      (seq [expect .openParen "`(`", type w, expect .identifier "loop variable",
        expect (.keyword .kwIn) "`in`", expression w, expect .closeParen "`)`", w.statement]) := by
    refine .expect_seq hσ.toOpens rfl nofun (fun hopener => .of_fails ?_)
      ⟨carried_readType hσ h, .expect hσ.toOpens rfl, .expect hσ.toOpens rfl, carried_expression hσ h,
        .expect hσ.toOpens rfl, h.statement, trivial⟩
    exact hσ.swap.old_ahead.type_seq_fails (by rw [hopener]; rfl) nofun nofun nofun
  exact .node ((Carries.bump hσ.toOpens hst hs False.elim).andThen fun _ _ s t _ _ => hhead s t)

omit h in
theorem atSwitchLabel_aligned (hst : σ.Aligned s t) : atSwitchLabel t = atSwitchLabel s := by
  have hdefault : (atKeyword .kwDefault t && kindAhead 1 t == .colon) =
      (atKeyword .kwDefault s && kindAhead 1 s == .colon) := hst.both hσ.toOpens rfl rfl
  rw [atSwitchLabel, atSwitchLabel, hst.atKeyword hσ.toOpens (by rfl), hdefault]

theorem carries_switchLabel (hst : σ.Aligned s t) (hs : atSwitchLabel s = true) :
    Carries σ False (switchLabel g) (switchLabel w) s t := by
  refine .look ?_
  rw [hst.atKeyword hσ.toOpens (by rfl)]
  refine .ite (fun hdefault => .node ?_) fun hother => .node ?_
  · have hkind : kindAhead 0 s = .keyword .kwDefault := beq_iff_eq.mp hdefault
    have hcolon : (kindAhead 1 s == .colon) = true := by
      simpa [atSwitchLabel, atKeyword, atKind, hkind] using hs
    refine .bump_drop hσ.toOpens hst (hkind ▸ rfl) (ready_of_atKeyword hdefault) False.elim
      fun s' t' hst' hdrop _ => ?_
    rw [Site.kindAhead_drop, ← hdrop] at hcolon
    exact (Carries.bump_kind hσ.toOpens hst' hcolon rfl).seq trivial
  · have hcase : atKeyword .kwCase s = true := by simpa [atSwitchLabel, hother] using hs
    exact (Carries.bump_kind hσ.toOpens hst hcase rfl).seq
      ⟨carried_pattern hσ h, carried_whenClause hσ h, .expect hσ.toOpens rfl, trivial⟩

theorem carried_switchSection : Carried σ False (switchSection g) (switchSection w) := by
  have hlabels : Carried σ False (many atSwitchLabel (switchLabel g))
      (many atSwitchLabel (switchLabel w)) :=
    .many hσ.toOpens (fun _ _ => atSwitchLabel_aligned hσ) (fun _ => Repeats.switchLabels.reads h.reads)
      (fun _ => Repeats.switchLabels.reads h.reads') fun _ _ => carries_switchLabel hσ h
  have hstatements : Carried σ False
      (many (fun s => before .closeBrace s && !atSwitchLabel s) g.statement)
      (many (fun s => before .closeBrace s && !atSwitchLabel s) w.statement) :=
    .many hσ.toOpens
      (fun s t hst => by rw [hst.beforeKind hσ.toOpens (by rfl), atSwitchLabel_aligned hσ hst])
      (fun _ => Repeats.sectionStatements.reads h.reads)
      (fun _ => Repeats.sectionStatements.reads h.reads') fun s t hst _ => h.statement s t hst
  refine fun s t hst => .look ?_
  rw [atSwitchLabel_aligned hσ hst]
  exact .ite (fun _ => .node ((hlabels s t hst).seq ⟨hstatements, trivial⟩)) fun _ => .fail

theorem carries_switchStatement (hst : σ.Aligned s t) (hs : (kindAhead 0 s).opens = false) :
    Carries σ False (switchStatement g) (switchStatement w) s t := by
  have hsections : Carried σ False (many (before .closeBrace) (switchSection g))
      (many (before .closeBrace) (switchSection w)) :=
    .many hσ.toOpens (fun _ _ hst => hst.beforeKind hσ.toOpens rfl)
      (fun _ => Repeats.switchSections.reads h.reads) (fun _ => Repeats.switchSections.reads h.reads')
      fun s t hst _ => carried_switchSection hσ h s t hst
  exact .node ((Carries.bump hσ.toOpens hst hs False.elim).seq
    ⟨carried_condition hσ h, .expect hσ.toOpens rfl, hsections, .expect hσ.toOpens rfl, trivial⟩)

omit hσ h in
/-- In a `catch` clause, a name or the closing parenthesis comes behind the type. -/
theorem catchDeclaration_fails {whole : Prop} (hs : OperandAhead whole s) (hwhole : whole)
    (ts : List Tree) (rest : List Lexeme) :
    seq [type g, eat .identifier, expect .closeParen "`)`"] s ≠ .ok (ts, rest) := by
  intro hok
  obtain ⟨_, mid, _, htype, hok, -⟩ := andThen_eq_ok hok
  obtain ⟨_, mid', _, heat, hok, -⟩ := andThen_eq_ok hok
  obtain ⟨_, _, _, hexpect, -, -⟩ := andThen_eq_ok hok
  have hends := hs.type hwhole htype
  have hname : atKind .identifier mid = false := hends.atKind nofun nofun nofun
  have hclose : atKind .closeParen mid = false := hends.atKind nofun nofun nofun
  obtain rfl := (ReadsTo.whenever_false hname).unique heat
  rw [expect, look, hclose] at hexpect
  cases hexpect

theorem carries_catchClause (hst : σ.Aligned s t) (hs : (kindAhead 0 s).opens = false) :
    Carries σ False (catchClause g) (catchClause w) s t := by
  have hdeclaration : Carried σ False
      (whenever (atKind .openParen) (node .catchDeclaration
        (seq [bump, type g, eat .identifier, expect .closeParen "`)`"])))
      (whenever (atKind .openParen) (node .catchDeclaration
        (seq [bump, type w, eat .identifier, expect .closeParen "`)`"]))) := by
    refine .whenever (fun _ _ hst => hst.atKind hσ.toOpens rfl) fun s t hst hs => .node ?_
    refine .open_seq hσ.toOpens hst (ready_of_atKind hs nofun) False.elim (fun hopener _ => .of_fails ?_)
      fun s' t' hst' _ _ => (carried_readType hσ h s' t' hst').seq
        ⟨.eat hσ.toOpens rfl, .expect hσ.toOpens rfl, trivial⟩
    exact catchDeclaration_fails hσ.swap.old_ahead (opensWhole_of_atKind (hopener ▸ hs) rfl)
  exact .node ((Carries.bump hσ.toOpens hst hs False.elim).seq
    ⟨hdeclaration, carried_whenClause hσ h, carried_block hσ h, trivial⟩)

theorem carries_tryStatement (hst : σ.Aligned s t) (hs : (kindAhead 0 s).opens = false) :
    Carries σ False (tryStatement g) (tryStatement w) s t := by
  have hclauses : Carried σ False (many (atKeyword .kwCatch) (catchClause g))
      (many (atKeyword .kwCatch) (catchClause w)) :=
    .many hσ.toOpens (fun _ _ hst => hst.atKeyword hσ.toOpens rfl)
      (fun _ => Repeats.catchClauses.reads h.reads) (fun _ => Repeats.catchClauses.reads h.reads')
      fun s t hst hs => by
        have hkind : kindAhead 0 s = .keyword .kwCatch := beq_iff_eq.mp hs
        exact carries_catchClause hσ h hst (hkind ▸ rfl)
  have hfinally : Carried σ False
      (whenever (atKeyword .kwFinally) (node .finallyClause (seq [bump, block g])))
      (whenever (atKeyword .kwFinally) (node .finallyClause (seq [bump, block w]))) :=
    .whenever (fun _ _ hst => hst.atKeyword hσ.toOpens rfl) fun s t hst hs =>
      .node ((Carries.bump_kind hσ.toOpens hst hs rfl).seq ⟨carried_block hσ h, trivial⟩)
  have hhandlers : Carried σ False
      (look fun s =>
        if atKeyword .kwCatch s || atKeyword .kwFinally s then
          seq [many (atKeyword .kwCatch) (catchClause g),
            whenever (atKeyword .kwFinally) (node .finallyClause (seq [bump, block g]))]
        else fail "`catch` or `finally`")
      (look fun s =>
        if atKeyword .kwCatch s || atKeyword .kwFinally s then
          seq [many (atKeyword .kwCatch) (catchClause w),
            whenever (atKeyword .kwFinally) (node .finallyClause (seq [bump, block w]))]
        else fail "`catch` or `finally`") := by
    refine fun s t hst => .look ?_
    rw [hst.atKeyword hσ.toOpens (by rfl), hst.atKeyword hσ.toOpens (by rfl)]
    exact .ite (fun _ => (hclauses s t hst).seq ⟨hfinally, trivial⟩) fun _ => .fail
  exact .node ((Carries.bump hσ.toOpens hst hs False.elim).seq
    ⟨carried_block hσ h, hhandlers, trivial⟩)

theorem carries_usingStatement (hst : σ.Aligned s t) (hs : (kindAhead 0 s).opens = false)
    (hready : Ready s) : Carries σ False (usingStatement g) (usingStatement w) s t := by
  have hresource : Carried σ False
      (look fun s => if looksLikeVariables g s then variableDeclaration g else expression g)
      (look fun s => if looksLikeVariables w s then variableDeclaration w else expression w) := by
    refine fun s t hst => .look ?_
    rw [looksLikeVariables_aligned hσ h hst]
    exact .ite (fun _ => carried_variableDeclaration hσ h s t hst) fun _ =>
      carried_expression hσ h s t hst
  unfold usingStatement
  dsimp only
  refine .look ?_
  rw [hst.secondIs hσ.toOpens hs (by rfl)]
  refine .ite (fun hopen => .node ?_) fun _ => .node ?_
  · refine .bump_drop hσ.toOpens hst hs hready False.elim fun s' t' hst' hdrop _ => ?_
    rw [Site.kindAhead_drop, ← hdrop] at hopen
    refine .open_seq hσ.toOpens hst' (ready_of_atKind hopen nofun) False.elim (fun hopener _ => ?_)
      fun s t hst _ _ => (hresource s t hst).seq ⟨.expect hσ.toOpens rfl, h.statement, trivial⟩
    have hwhole : σ.opener.token.kind.opensWhole = true := opensWhole_of_atKind (hopener ▸ hopen) rfl
    refine Carries.seq (.look ?_) ⟨.expect hσ.toOpens rfl, h.statement, trivial⟩
    rw [looksLikeVariables_ahead hσ.swap.old_ahead hwhole,
      looksLikeVariables_ahead hσ.swap.new_ahead hwhole]
    exact carries_expression_site hσ h hwhole
  · exact (Carries.bump hσ.toOpens hst hs False.elim).seq
      ⟨carried_variableDeclaration hσ h, carried_semicolon hσ, trivial⟩

omit h in
theorem atYield_aligned (hst : σ.Aligned s t) : atYield t = atYield s := by
  rw [atYield, atYield, hst.atWord hσ.toOpens]
  by_cases hyield : atWord "yield" s = true
  · have hkind : kindAhead 0 s = .identifier := beq_iff_eq.mp (Bool.and_eq_true_iff.mp hyield).1
    rw [hst.secondIs hσ.toOpens (hkind ▸ rfl) (by rfl), hst.secondIs hσ.toOpens (hkind ▸ rfl) (by rfl)]
  · rw [Bool.not_eq_true] at hyield
    rw [hyield, Bool.false_and, Bool.false_and]

theorem carries_yieldStatement (hst : σ.Aligned s t) (hs : atYield s = true) :
    Carries σ False (yieldStatement g) (yieldStatement w) s t := by
  obtain ⟨hyield, hword⟩ := Bool.and_eq_true_iff.mp hs
  have hkind : kindAhead 0 s = .identifier := beq_iff_eq.mp (Bool.and_eq_true_iff.mp hyield).1
  have hopens : (kindAhead 0 s).opens = false := hkind ▸ rfl
  have hready : Ready s := ready_of_kind hkind nofun
  refine .look ?_
  rw [hst.secondIs hσ.toOpens hopens (by rfl)]
  refine .ite (fun hreturn => .node ?_) fun hreturn => .node ?_
  · refine .bump_drop hσ.toOpens hst hopens hready False.elim fun s' t' hst' hdrop _ => ?_
    rw [Site.kindAhead_drop, ← hdrop] at hreturn
    have hready' : Ready s' := ready_of_atKind hreturn nofun
    refine .open_seq hσ.toOpens hst' hready' False.elim (fun hopener _ => ?_)
      fun s t hst _ _ => (carried_expression hσ h s t hst).seq ⟨carried_semicolon hσ, trivial⟩
    rw [hopener] at hreturn
    exact (carries_expression_site hσ h (opensWhole_of_atKind hreturn rfl)).seq
      ⟨carried_semicolon hσ, trivial⟩
  · have hbreak : (kindAhead 1 s == .keyword .kwBreak) = true := by simpa [hreturn] using hword
    refine .bump_drop hσ.toOpens hst hopens hready False.elim fun s' t' hst' hdrop _ => ?_
    rw [Site.kindAhead_drop, ← hdrop] at hbreak
    exact (Carries.bump_kind hσ.toOpens hst' hbreak rfl).seq ⟨carried_semicolon hσ, trivial⟩

theorem carried_plainStatement : Carried σ False (plainStatement g) (plainStatement w) := by
  refine fun s t hst => .look ?_
  rw [atYield_aligned hσ hst, looksLikeVariables_aligned hσ h hst]
  refine .ite (carries_yieldStatement hσ h hst) fun _ => .ite (fun _ => .node ?_) fun _ => .node ?_
  · exact (carried_variableDeclaration hσ h s t hst).seq ⟨carried_semicolon hσ, trivial⟩
  · exact (carried_expression hσ h s t hst).seq ⟨carried_semicolon hσ, trivial⟩

theorem carried_value : Carried σ False (whenever (fun s => !atKind .semicolon s) (expression g))
    (whenever (fun s => !atKind .semicolon s) (expression w)) :=
  .whenever (fun s t hst => by rw [hst.atKind hσ.toOpens (by rfl)]) fun s t hst _ =>
    carried_expression hσ h s t hst

theorem carried_statement : Carried σ False (statement g) (statement w) := by
  intro s t hst
  rcases hst.kind hσ.toOpens with hkind | ⟨hs, ht⟩
  · have hbump {k : TokenKind} (hs : kindAhead 0 s = k) (hk : k.opens = false) :
        Carries σ False bump bump s t := .bump hσ.toOpens hst (hs ▸ hk) False.elim
    unfold statement
    dsimp only
    refine .look ?_
    rw [hkind]
    split
    case h_1 => exact carried_block hσ h s t hst
    case h_2 hs => exact .node (hbump hs rfl)
    case h_3 hs =>
      refine .node (.open_seq hσ.toOpens hst (ready_of_kind hs nofun) False.elim (fun hopener _ => ?_)
        fun s' t' hst' _ _ => (carried_value hσ h s' t' hst').seq ⟨carried_semicolon hσ, trivial⟩)
      rw [hopener] at hs
      have hwhole := opensWhole_of_atKind (k := .keyword .kwReturn) (beq_iff_eq.mpr hs) rfl
      refine Carries.seq (.whenever_true ?_ ?_ (carries_expression_site hσ h hwhole))
        ⟨carried_semicolon hσ, trivial⟩
      · rw [hσ.swap.old_ahead.atKind (by rfl)]
        rfl
      · rw [hσ.swap.new_ahead.atKind (by rfl)]
        rfl
    case h_4 hs => exact .node ((hbump hs rfl).seq ⟨carried_value hσ h, carried_semicolon hσ, trivial⟩)
    case h_5 hs => exact carries_ifStatement hσ h hst (hs ▸ rfl)
    case h_6 hs => exact .node ((hbump hs rfl).seq ⟨carried_condition hσ h, h.statement, trivial⟩)
    case h_7 hs => exact carries_forStatement hσ h hst (hs ▸ rfl)
    case h_8 hs => exact carries_foreachStatement hσ h hst (hs ▸ rfl)
    case h_9 hs => exact .node ((hbump hs rfl).seq ⟨carried_semicolon hσ, trivial⟩)
    case h_10 hs => exact .node ((hbump hs rfl).seq ⟨carried_semicolon hσ, trivial⟩)
    case h_11 hs =>
      exact .node ((hbump hs rfl).seq ⟨h.statement, .expect hσ.toOpens rfl, carried_condition hσ h,
        carried_semicolon hσ, trivial⟩)
    case h_12 hs => exact .node ((hbump hs rfl).seq ⟨carried_condition hσ h, h.statement, trivial⟩)
    case h_13 hs => exact carries_switchStatement hσ h hst (hs ▸ rfl)
    case h_14 hs => exact carries_tryStatement hσ h hst (hs ▸ rfl)
    case h_15 hs => exact carries_usingStatement hσ h hst (hs ▸ rfl) (ready_of_kind hs nofun)
    case h_16 hs =>
      exact .node (Carries.seq (.node (hbump hs rfl))
        ⟨carried_variableDeclaration hσ h, carried_semicolon hσ, trivial⟩)
    case h_17 => exact carried_plainStatement hσ h s t hst
  · have hplain {g : Inner} {s : List Lexeme} (hs : (kindAhead 0 s).isAccess = true) :
        statement g s = plainStatement g s := by
      obtain ⟨v, hv, hword⟩ := TokenKind.isAccess_iff.mp hs
      rw [statement, look, hv]
      cases v <;> first | rfl | cases hword
    exact .of_eq (hplain hs) (hplain ht) (carried_plainStatement hσ h s t hst)

/-! ## Parts of declarations -/

theorem carried_typeParameters : Carried σ False (typeParameters g) (typeParameters w) :=
  .whenever (fun _ _ hst => hst.atKind hσ.toOpens rfl) fun _ _ hst hs =>
    carries_typeArguments hσ.toOpens h.reads h.reads' (h.type hσ) hst hs

theorem carried_baseList : Carried σ False (baseList g) (baseList w) := by
  have harguments : Carried σ False (whenever (atKind .openParen) (argumentList g))
      (whenever (atKind .openParen) (argumentList w)) :=
    .whenever (fun _ _ hst => hst.atKind hσ.toOpens rfl) fun s t hst _ =>
      carried_argumentList hσ h s t hst
  have htypes : Carried σ False
      (separated (seq [type g, whenever (atKind .openParen) (argumentList g)]))
      (separated (seq [type w, whenever (atKind .openParen) (argumentList w)])) :=
    .separated hσ.toOpens h.reads h.reads' .baseTypes .baseTypes
      (.seq ⟨carried_readType hσ h, harguments, trivial⟩)
  exact .whenever (fun _ _ hst => hst.atKind hσ.toOpens rfl) fun s t hst hs =>
    .node ((Carries.bump_kind hσ.toOpens hst hs rfl).seq ⟨htypes, trivial⟩)

theorem carries_arrowClause (hst : σ.Aligned s t) (hs : atKind .arrow s = true) :
    Carries σ False (arrowClause g) (arrowClause w) s t := by
  refine .node (.open_seq hσ.toOpens hst (ready_of_atKind hs nofun) False.elim (fun hopener _ => ?_)
    fun s' t' hst' _ _ => (carried_expression hσ h s' t' hst').seq trivial)
  exact (carries_expression_site hσ h (opensWhole_of_atKind (hopener ▸ hs) rfl)).seq trivial

theorem carries_arrowBody (hst : σ.Aligned s t) (hs : atKind .arrow s = true) :
    Carries σ False (seq [arrowClause g, semicolon]) (seq [arrowClause w, semicolon]) s t :=
  (carries_arrowClause hσ h hst hs).seq ⟨carried_semicolon hσ, trivial⟩

theorem carried_methodBody : Carried σ False (methodBody g) (methodBody w) := by
  have hnone : Carried σ False (expect .semicolon "method body or `;`")
      (expect .semicolon "method body or `;`") := .expect hσ.toOpens rfl
  refine fun s t hst => .look ?_
  rw [hst.atKind hσ.toOpens (by rfl), hst.atKind hσ.toOpens (by rfl)]
  exact .ite (fun _ => carried_block hσ h s t hst) fun _ =>
    .ite (carries_arrowBody hσ h hst) fun _ => hnone s t hst

theorem carried_accessors : Carried σ False
    (many (before .closeBrace) (node .accessorDeclaration
      (seq [attributes, modifiers, expect .identifier "`get`, `set` or `init`", methodBody g])))
    (many (before .closeBrace) (node .accessorDeclaration
      (seq [attributes, modifiers, expect .identifier "`get`, `set` or `init`", methodBody w]))) := by
  have haccessor : Carried σ False
      (node .accessorDeclaration
        (seq [attributes, modifiers, expect .identifier "`get`, `set` or `init`", methodBody g]))
      (node .accessorDeclaration
        (seq [attributes, modifiers, expect .identifier "`get`, `set` or `init`", methodBody w])) :=
    .node (.seq ⟨carried_attributes hσ, carried_modifiers hσ, .expect hσ.toOpens rfl,
      carried_methodBody hσ h, trivial⟩)
  exact .many hσ.toOpens (fun _ _ hst => hst.beforeKind hσ.toOpens rfl)
    (fun _ => Repeats.accessors.reads h.reads) (fun _ => Repeats.accessors.reads h.reads')
    fun s t hst _ => haccessor s t hst

theorem carried_typeBody : Carried σ False (typeBody g) (typeBody w) :=
  .seq ⟨.expect hσ.toOpens rfl, .many hσ.toOpens (fun _ _ hst => hst.beforeKind hσ.toOpens rfl)
    (fun _ => Repeats.typeMembers.reads h.reads) (fun _ => Repeats.typeMembers.reads h.reads')
    fun s t hst _ => h.member s t hst, .expect hσ.toOpens rfl, .eat hσ.toOpens rfl, trivial⟩

/-! ## Heads that are read without being looked at -/

omit h in
theorem atBody_aligned (hst : σ.Aligned s t) : atBody t = atBody s := by
  rw [atBody, atBody, hst.atKind hσ.toOpens (by rfl), hst.atKind hσ.toOpens (by rfl),
    hst.atKind hσ.toOpens (by rfl), hst.atEnd hσ.toOpens]

omit hσ h in
/-- A loop that reads whatever comes next goes over the next lexeme or ends in front of it. -/
theorem readsTo_many_bump {test : List Lexeme → Bool} {x : Lexeme} {rest : List Lexeme}
    (hx : x.token.kind ≠ .endOfFile) :
    ReadsTo (many test bump) (x :: s) rest ↔
      if test (x :: s) then ReadsTo (many test bump) s rest else rest = x :: s := by
  have hstep : many test bump (x :: s) =
      whenever test (andThen bump (manyUpTo test bump s.length)) (x :: s) := rfl
  by_cases htest : test (x :: s) = true
  · rw [if_pos htest]
    have hbump : ReadsTo bump (x :: s) s := .bump hx
    constructor
    · rintro ⟨ts, hts⟩
      rw [hstep, whenever, look, if_pos htest] at hts
      obtain ⟨_, mid, us, hfirst, hus, -⟩ := andThen_eq_ok hts
      obtain rfl := hbump.unique hfirst
      exact ⟨us, hus⟩
    · rintro ⟨us, hus⟩
      obtain ⟨ts, hts⟩ := hbump
      have hus' : manyUpTo test bump s.length s = .ok (us, rest) := hus
      refine ⟨ts ++ us, ?_⟩
      rw [hstep, whenever, look, if_pos htest]
      simp only [andThen, hts, hus']
  · rw [if_neg htest]
    constructor
    · rintro ⟨ts, hts⟩
      rw [hstep, whenever, look, if_neg htest] at hts
      exact (keep_eq_ok hts).2
    · rintro rfl
      exact ⟨[], by rw [hstep, whenever, look, if_neg htest]; rfl⟩

omit hσ h in
theorem readsTo_constraints_swaps {x rest : List Lexeme} (hx : ∀ l ∈ x, l.token.kind.swaps = true) :
    ReadsTo (many (fun s => !atBody s) bump) (x ++ s) rest ↔
      ReadsTo (many (fun s => !atBody s) bump) s rest := by
  induction x with
  | nil => exact Iff.rfl
  | cons l x ih =>
    obtain ⟨hl, hx⟩ := List.forall_mem_cons.mp hx
    have hne {k : TokenKind} (hk : k.swaps = false) : l.token.kind ≠ k := by
      rintro rfl
      rw [hl] at hk
      cases hk
    have htest : (!atBody (l :: (x ++ s))) = true := by
      have hkind {k : TokenKind} (hk : k.swaps = false) : atKind k (l :: (x ++ s)) = false :=
        beq_eq_false_iff_ne.mpr (hne hk)
      rw [atBody, atEnd, hkind rfl, hkind rfl, hkind rfl, hkind rfl]
      rfl
    rw [List.cons_append, readsTo_many_bump (hne rfl), if_pos htest]
    exact ih hx

section

omit h

variable {test : List Lexeme → Bool} (htest : ∀ s t, σ.Aligned s t → test t = test s)
  (hends : ∀ s, atEnd s = true → test s = false)
include htest

omit hσ in
theorem carries_many_bump_cons {x y : Lexeme} (hx : x.token.kind ≠ .endOfFile) (hxy : x.Near y)
    (hhere : σ.Aligned (x :: s) (y :: t))
    (hmore : Carries σ False (many test bump) (many test bump) s t) :
    Carries σ False (many test bump) (many test bump) (x :: s) (y :: t) := by
  refine carries_of_readsTo fun rest hrest => ?_
  rw [readsTo_many_bump hx] at hrest
  by_cases hs : test (x :: s) = true
  · rw [if_pos hs] at hrest
    obtain ⟨rest', hrest', hst⟩ := hmore.readsTo hrest
    refine ⟨rest', ?_, hst⟩
    rwa [readsTo_many_bump (hxy.ne_end hx), htest _ _ hhere, if_pos hs]
  · rw [if_neg hs] at hrest
    refine ⟨y :: t, ?_, hrest ▸ hhere⟩
    rw [readsTo_many_bump (hxy.ne_end hx), htest _ _ hhere, if_neg hs]

include hends

omit hσ in
theorem carries_many_bump_same (hst : Same s t) :
    Carries σ False (many test bump) (many test bump) s t := by
  induction hst with
  | @ends a b ha hab =>
    have hhere : σ.Aligned [a] [b] := .behind (.ends ha hab)
    have hnone : test [a] = false := hends [a] (beq_iff_eq.mpr ha)
    refine carries_of_readsTo fun rest hrest => ⟨[b], ?_, ?_⟩
    · exact .many_false ((htest _ _ hhere).trans hnone)
    · obtain ⟨ts, hts⟩ := hrest
      rw [(ReadsTo.many_false hnone).unique hts]
      exact hhere
  | cons ha hab hshift hst ih =>
    exact carries_many_bump_cons htest ha hab (.behind (.cons ha hab hshift hst)) ih

end

omit h in
/-- The constraints of a declaration may go over the site. -/
theorem carried_constraintTokens : Carried σ False (many (fun s => !atBody s) bump)
    (many (fun s => !atBody s) bump) := by
  have htest (s t : List Lexeme) (hst : σ.Aligned s t) : (!atBody t) = !atBody s := by
    rw [atBody_aligned hσ hst]
  have hends (s : List Lexeme) (hs : atEnd s = true) : (!atBody s) = false := by
    rw [atBody, hs, Bool.or_true]
    rfl
  intro s t hst
  cases hst with
  | behind hst => exact carries_many_bump_same htest hends hst
  | @before a ha =>
    induction a with
    | nil =>
      refine carries_many_bump_cons htest (hσ.kind_ne rfl) (.inl rfl) (.before ha)
        (carries_of_readsTo fun rest hrest => ?_)
      obtain ⟨x, y, b, b', hold, hnew, hb, hx, hy⟩ := hσ.swap.split
      rw [hold, readsTo_constraints_swaps hx] at hrest
      obtain ⟨rest', hrest', hst⟩ := (carries_many_bump_same htest hends hb).readsTo hrest
      refine ⟨rest', ?_, hst⟩
      rwa [hnew, readsTo_constraints_swaps hy]
    | cons x a ih =>
      exact carries_many_bump_cons htest ha.1 (.inl rfl) (.before ha) (ih ha.tail)

omit h in
theorem carried_constraints : Carried σ False constraints constraints :=
  .whenever (fun _ _ hst => hst.atWord hσ.toOpens _) fun s t hst _ =>
    carried_constraintTokens hσ s t hst

omit h in
/-- In the head of an operator declaration, the site is not reached before the parameters. -/
theorem carries_operatorSigns (hst : σ.Aligned s t) (hs : atWord "operator" s = true) :
    Carries σ False (many (before .openParen) bump) (many (before .openParen) bump) (s.drop 1)
      (t.drop 1) := by
  have htest (s t : List Lexeme) (hst : σ.Aligned s t) : before .openParen t = before .openParen s :=
    hst.beforeKind hσ.toOpens rfl
  have hends (s : List Lexeme) (hs : atEnd s = true) : before .openParen s = false := by
    rw [before, hs]
    exact Bool.and_false _
  have hfront {a : List Lexeme} (ha : σ.Leads a)
      (hparen : ∃ p ∈ a ++ [σ.opener], p.token.kind = .openParen) :
      Carries σ False (many (before .openParen) bump) (many (before .openParen) bump)
        (a ++ σ.opener :: σ.old) (a ++ σ.opener :: σ.new) := by
    have hstop {s t : List Lexeme} (hst : σ.Aligned s t) (hs : kindAhead 0 s = .openParen) :
        Carries σ False (many (before .openParen) bump) (many (before .openParen) bump) s t := by
      have hnone : before .openParen s = false := by simp [before, atKind, hs]
      refine carries_of_readsTo fun rest hrest => ⟨t, .many_false ((htest s t hst).trans hnone), ?_⟩
      obtain ⟨ts, hts⟩ := hrest
      rw [(ReadsTo.many_false hnone).unique hts]
      exact hst
    induction a with
    | nil =>
      obtain ⟨p, hp, hkind⟩ := hparen
      rw [List.nil_append, List.mem_singleton] at hp
      exact hstop (.before ha) (hp ▸ hkind)
    | cons x a ih =>
      by_cases hx : x.token.kind = .openParen
      · exact hstop (.before ha) hx
      · obtain ⟨p, hp, hkind⟩ := hparen
        have hp : p ∈ a ++ [σ.opener] := by
          rcases List.mem_cons.mp hp with rfl | hp
          · exact absurd hkind hx
          · exact hp
        exact carries_many_bump_cons htest ha.1 (.inl rfl) (.before ha) (ih ha.tail ⟨p, hp, hkind⟩)
  obtain ⟨hname, htext⟩ := Bool.and_eq_true_iff.mp hs
  cases hst with
  | @before a ha =>
    cases a with
    | nil => exact absurd (beq_iff_eq.mp hname) (hσ.kind_ne rfl)
    | cons x a => exact hfront ha.tail (ha.2.1 (by simpa using htext))
  | behind hst =>
    cases hst with
    | @ends a b ha _ =>
      rw [show a.token.kind = .identifier from beq_iff_eq.mp hname] at ha
      cases ha
    | cons _ _ _ hst => exact carries_many_bump_same htest hends hst

omit hσ h in
theorem accessor_path {path rest : List Lexeme} (hpath : Path path) (hrest : atBody rest = false)
    (ts : List Tree) (rest' : List Lexeme) :
    node .accessorDeclaration
      (seq [attributes, modifiers, expect .identifier "`get`, `set` or `init`", methodBody g])
      (path ++ rest) ≠ .ok (ts, rest') := by
  intro hok
  obtain ⟨_, hok, -⟩ := node_eq_ok hok
  obtain ⟨_, s₁, _, hattributes, hok, -⟩ := andThen_eq_ok hok
  obtain ⟨_, s₂, _, hmodifiers, hok, -⟩ := andThen_eq_ok hok
  obtain ⟨_, s₃, _, hname, hok, -⟩ := andThen_eq_ok hok
  obtain ⟨us, mid, _, hbody, -, -⟩ := andThen_eq_ok hok
  obtain rfl := (ReadsTo.many_false (hpath.atKind rest (k := .openBracket) rfl)).unique hattributes
  have hmodifier : (kindAhead 0 (path ++ rest)).keyword?.any Keyword.isModifier = false := by
    have hkind := hpath.kind rest
    generalize kindAhead 0 (path ++ rest) = k at hkind
    cases k with
    | keyword v => cases v <;> first | rfl | cases hkind
    | _ => rfl
  obtain ⟨_, hmodifiers, -⟩ := node_eq_ok hmodifiers
  obtain rfl := (ReadsTo.many_false hmodifier).unique hmodifiers
  cases hpath with
  | @mk head names _ hnames =>
    rw [List.cons_append] at hname
    have hhead : head.token.kind = .identifier := by
      by_contra hother
      have hat : atKind .identifier (head :: (names ++ rest)) = false :=
        beq_eq_false_iff_ne.mpr hother
      rw [expect, look, hat] at hname
      cases hname
    obtain rfl := (ReadsTo.expect hhead (by decide)).unique hname
    have hnone : atBody (names ++ rest) = false := by
      rcases hnames.kind rest with hkind | hkind
      · simp [atBody, atEnd, atKind, hkind]
      · simpa [atBody, atEnd, atKind, hkind] using hrest
    simp only [atBody, Bool.or_eq_false_iff] at hnone
    obtain ⟨⟨⟨hbrace, hsemicolon⟩, harrow⟩, -⟩ := hnone
    have hsemicolon' : expect .semicolon "method body or `;`" (names ++ rest) = .ok (us, mid) := by
      simpa [methodBody, look, hbrace, harrow] using hbody
    rw [expect, look, hsemicolon] at hsemicolon'
    cases hsemicolon'

omit h in
/-- No accessor starts with an operand that is put into a call. -/
theorem accessors_fail (hbracket : σ.bracket = true) (ts : List Tree) (rest : List Lexeme) :
    seq [many (before .closeBrace) (node .accessorDeclaration
      (seq [attributes, modifiers, expect .identifier "`get`, `set` or `init`", methodBody g])),
      expect .closeBrace "`\x7d`"] σ.old ≠ .ok (ts, rest) := by
  obtain ⟨path, rest', hold, hpath, hrest⟩ := hσ.swap.old_accessor hbracket
  intro hok
  obtain ⟨us, mid, _, hmany, -, -⟩ := andThen_eq_ok hok
  have htest : before .closeBrace σ.old = true := by
    have hend : atEnd σ.old = false := hσ.swap.old_ahead.atKind rfl
    rw [before, hσ.swap.old_ahead.atKind (by rfl), hend]
    rfl
  cases hcons : σ.old with
  | nil => exact hσ.swap.old_ahead.ne_nil hcons
  | cons x b =>
    rw [hcons] at hmany htest
    rw [many, look, List.length_cons, manyUpTo, whenever, look, if_pos htest] at hmany
    obtain ⟨_, _, _, haccessor, -, -⟩ := andThen_eq_ok hmany
    rw [← hcons, hold] at haccessor
    exact accessor_path hpath hrest _ _ haccessor

/-! ## Types -/

theorem carries_accessorList (hst : σ.Aligned s t)
    (hat : s = σ.opener :: σ.old → t = σ.opener :: σ.new →
      σ.bracket = true ∨ σ.Aligned σ.old σ.new) :
    Carries σ False (accessorList g) (accessorList w) s t := by
  have hrest : AllCarried σ False
      [many (before .closeBrace) (node .accessorDeclaration
        (seq [attributes, modifiers, expect .identifier "`get`, `set` or `init`", methodBody g])),
        expect .closeBrace "`\x7d`"]
      [many (before .closeBrace) (node .accessorDeclaration
        (seq [attributes, modifiers, expect .identifier "`get`, `set` or `init`", methodBody w])),
        expect .closeBrace "`\x7d`"] :=
    ⟨carried_accessors hσ h, .expect hσ.toOpens rfl, trivial⟩
  by_cases hs : Ready s
  · refine .node (.open_seq hσ.toOpens hst hs False.elim (fun hopener hopener' => ?_)
      fun s' t' hst' _ _ => Carried.seq hrest s' t' hst')
    rcases hat hopener hopener' with hbracket | hst
    · exact .of_fails (accessors_fail hσ hbracket)
    · exact Carried.seq hrest _ _ hst
  · have hkind : kindAhead 0 s = .endOfFile := Decidable.not_not.mp hs
    exact .node ((Carries.bump hσ.toOpens hst (hkind ▸ rfl) False.elim).seq hrest)

theorem carries_typeDeclaration (kind : NodeKind) (header header' : List Tree) (hst : σ.Aligned s t)
    (hs : (kindAhead 0 s).opens = false) :
    Carries σ False (typeDeclaration g kind header) (typeDeclaration w kind header') s t :=
  .node (.keep_seq False.elim ((Carries.bump hσ.toOpens hst hs False.elim).seq
    ⟨.expect hσ.toOpens rfl, carried_typeParameters hσ h, carried_baseList hσ h, carried_constraints hσ,
      carried_typeBody hσ h, trivial⟩))

theorem carries_recordDeclaration (header header' : List Tree) (hst : σ.Aligned s t)
    (hs : (kindAhead 0 s).opens = false) :
    Carries σ False (recordDeclaration g header) (recordDeclaration w header') s t := by
  have hword : Carried σ False (whenever (fun s => atKeyword .kwStruct s || atKeyword .kwClass s) bump)
      (whenever (fun s => atKeyword .kwStruct s || atKeyword .kwClass s) bump) := by
    refine .whenever (fun s t hst => ?_) fun s t hst hs => ?_
    · rw [hst.atKeyword hσ.toOpens (by rfl), hst.atKeyword hσ.toOpens (by rfl)]
    rcases Bool.or_eq_true_iff.mp hs with hs | hs
    · exact .bump_kind hσ.toOpens hst hs rfl
    · exact .bump_kind hσ.toOpens hst hs rfl
  have hparameters : Carried σ False (whenever (atKind .openParen) (parameterList g))
      (whenever (atKind .openParen) (parameterList w)) :=
    .whenever (fun _ _ hst => hst.atKind hσ.toOpens rfl) fun s t hst _ =>
      carried_parameterList hσ h s t hst
  have hbody : Carried σ False (look fun s => if atKind .semicolon s then bump else typeBody g)
      (look fun s => if atKind .semicolon s then bump else typeBody w) := by
    refine fun s t hst => .look ?_
    rw [hst.atKind hσ.toOpens (by rfl)]
    exact .ite (fun hs => .bump_kind hσ.toOpens hst hs rfl) fun _ => carried_typeBody hσ h s t hst
  refine .look ?_
  dsimp only
  rw [hst.secondIs hσ.toOpens hs (by rfl)]
  exact .node (.keep_seq False.elim ((Carries.bump hσ.toOpens hst hs False.elim).seq
    ⟨hword, .expect hσ.toOpens rfl, carried_typeParameters hσ h, hparameters, carried_baseList hσ h,
      carried_constraints hσ, hbody, trivial⟩))

theorem carries_enumDeclaration (header header' : List Tree) (hst : σ.Aligned s t)
    (hs : (kindAhead 0 s).opens = false) :
    Carries σ False (enumDeclaration g header) (enumDeclaration w header') s t := by
  have hmembers := Carried.items hσ.toOpens h.reads h.reads'
    (fun s t hst => hst.beforeKind hσ.toOpens rfl) Lists.enumMembers Lists.enumMembers
    (Carried.node (.seq ⟨carried_attributes hσ, .expect hσ.toOpens rfl, carried_defaultValue hσ h,
      trivial⟩))
  exact .node (.keep_seq False.elim ((Carries.bump hσ.toOpens hst hs False.elim).seq
    ⟨.expect hσ.toOpens rfl, carried_baseList hσ h, .expect hσ.toOpens rfl, hmembers,
      .expect hσ.toOpens rfl, .eat hσ.toOpens rfl, trivial⟩))

theorem carries_delegateDeclaration (header header' : List Tree) (hst : σ.Aligned s t)
    (hs : (kindAhead 0 s).opens = false) :
    Carries σ False (delegateDeclaration g header) (delegateDeclaration w header') s t :=
  .node (.keep_seq False.elim ((Carries.bump hσ.toOpens hst hs False.elim).seq
    ⟨carried_readType hσ h, .expect hσ.toOpens rfl, carried_typeParameters hσ h,
      carried_parameterList hσ h, carried_constraints hσ, carried_semicolon hσ, trivial⟩))

/-! ## Members -/

theorem carries_constructorDeclaration (header header' : List Tree) (hst : σ.Aligned s t)
    (hs : (kindAhead 0 s).opens = false) :
    Carries σ False (constructorDeclaration g header) (constructorDeclaration w header') s t := by
  have htarget : Carried σ False
      (look fun s =>
        if atKeyword .kwThis s || atKeyword .kwBase s then bump else fail "`base` or `this`")
      (look fun s =>
        if atKeyword .kwThis s || atKeyword .kwBase s then bump else fail "`base` or `this`") := by
    refine fun s t hst => .look ?_
    rw [hst.atKeyword hσ.toOpens (by rfl), hst.atKeyword hσ.toOpens (by rfl)]
    refine .ite (fun hs => ?_) fun _ => .fail
    rcases Bool.or_eq_true_iff.mp hs with hs | hs
    · exact .bump_kind hσ.toOpens hst hs rfl
    · exact .bump_kind hσ.toOpens hst hs rfl
  have hinitializer : Carried σ False
      (whenever (atKind .colon) (seq [bump, look fun s =>
        if atKeyword .kwThis s || atKeyword .kwBase s then bump else fail "`base` or `this`",
        argumentList g]))
      (whenever (atKind .colon) (seq [bump, look fun s =>
        if atKeyword .kwThis s || atKeyword .kwBase s then bump else fail "`base` or `this`",
        argumentList w])) :=
    .whenever (fun _ _ hst => hst.atKind hσ.toOpens rfl) fun s t hst hs =>
      (Carries.bump_kind hσ.toOpens hst hs rfl).seq ⟨htarget, carried_argumentList hσ h, trivial⟩
  exact .node (.keep_seq False.elim ((Carries.bump hσ.toOpens hst hs False.elim).seq
    ⟨carried_parameterList hσ h, hinitializer, carried_methodBody hσ h, trivial⟩))

omit h in
theorem headText_aligned (hst : σ.Aligned s t) :
    (t.head?.any fun l => l.token.text == "operator") =
      s.head?.any fun l => l.token.text == "operator" := by
  cases hst.step hσ.toOpens with
  | opener => rfl
  | ends _ hxy => simp [hxy]
  | next _ hxy _ _ =>
    rcases hxy with hxy | ⟨⟨-, hx⟩, -, hy⟩
    · simp [hxy]
    · simp [hx, hy]

omit h in
theorem atConversion_aligned (hst : σ.Aligned s t) : atConversion t = atConversion s := by
  rw [atConversion, atConversion, hst.atWord hσ.toOpens, hst.atWord hσ.toOpens]
  by_cases hname : atKind .identifier s = true
  · have hkind : kindAhead 0 s = .identifier := beq_iff_eq.mp hname
    rcases hst.drop hσ.toOpens (hkind ▸ rfl) with hst | ⟨hend, -⟩
    · rw [headText_aligned hσ hst]
    · rw [hkind] at hend
      cases hend
  · rw [Bool.not_eq_true] at hname
    simp only [atWord, hname, Bool.false_and, Bool.or_false]

theorem carries_conversionDeclaration (header header' : List Tree) (hst : σ.Aligned s t)
    (hs : atConversion s = true) :
    Carries σ False (conversionDeclaration g header) (conversionDeclaration w header') s t := by
  obtain ⟨hword, htext⟩ := Bool.and_eq_true_iff.mp hs
  have hkind : kindAhead 0 s = .identifier := by
    rcases Bool.or_eq_true_iff.mp hword with hword | hword
    · exact beq_iff_eq.mp (Bool.and_eq_true_iff.mp hword).1
    · exact beq_iff_eq.mp (Bool.and_eq_true_iff.mp hword).1
  have hrest : AllCarried σ False [type g, parameterList g, methodBody g]
      [type w, parameterList w, methodBody w] :=
    ⟨carried_readType hσ h, carried_parameterList hσ h, carried_methodBody hσ h, trivial⟩
  refine .node (.keep_seq False.elim (.bump_drop hσ.toOpens hst (hkind ▸ rfl)
    (ready_of_kind hkind nofun) False.elim fun s' t' hst' hdrop _ => ?_))
  rw [← hdrop] at htext
  by_cases hready : Ready s'
  · refine .open_seq hσ.toOpens hst' hready False.elim (fun hopener _ => ?_)
      fun s t hst _ _ => Carried.seq hrest s t hst
    -- the opener is not the word `operator`
    rw [hopener] at htext
    exact absurd (by simpa using htext) hσ.text
  · have hkind : kindAhead 0 s' = .endOfFile := Decidable.not_not.mp hready
    exact (Carries.bump hσ.toOpens hst' (hkind ▸ rfl) False.elim).seq hrest

omit hσ h in
theorem start_drop {header ty : List Tree} {rest : List Lexeme} (hs : Ready s)
    (h : ReadsTo (seq [keep header, keep ty, bump]) s rest) : rest = s.drop 1 := by
  obtain ⟨s₁, ⟨_, hheader⟩, h⟩ := h.seq_elim
  obtain ⟨s₂, ⟨_, hty⟩, h⟩ := h.seq_elim
  obtain ⟨s₃, ⟨_, hbump⟩, h⟩ := h.seq_elim
  rw [(keep_eq_ok hty).2, (keep_eq_ok hheader).2] at hbump
  rw [h.seq_nil_elim]
  exact (bump_eq hs.readable hbump).1

omit h in
/-- Behind a bracket, the opener is one that has a bracket in front. -/
theorem bracket_behind (hst : σ.Aligned s t) (hs : atKind .closeBracket s = true)
    (hopener : s.drop 1 = σ.opener :: σ.old) (hopener' : t.drop 1 = σ.opener :: σ.new) :
    σ.bracket = true ∨ σ.Aligned σ.old σ.new := by
  have hkind : kindAhead 0 s = .closeBracket := beq_iff_eq.mp hs
  cases hst with
  | @before a ha =>
    cases a with
    | nil => exact absurd hkind (hσ.kind_ne rfl)
    | cons x a =>
      have hlength := congrArg List.length hopener
      simp only [List.cons_append, List.drop_one, List.tail_cons, List.length_append, List.length_cons]
        at hlength
      have hnil : a = [] := List.length_eq_zero_iff.mp (by omega)
      exact .inl (ha.2.2.1 hkind hnil)
  | behind hst =>
    cases hst with
    | @ends a b ha _ =>
      rw [show a.token.kind = .closeBracket from hkind] at ha
      cases ha
    | cons _ _ _ hst =>
      simp only [List.drop_one, List.tail_cons] at hopener hopener'
      subst hopener hopener'
      exact .inr (.behind (hst.tail (hσ.kind_ne rfl)))

theorem carries_indexerBody (hst : σ.Aligned s t) (hs : atKind .openBracket s = true) :
    Carries σ False
      (seq [bracketedParameterList g, look fun s =>
        if atKind .arrow s then seq [arrowClause g, semicolon] else accessorList g])
      (seq [bracketedParameterList w, look fun s =>
        if atKind .arrow s then seq [arrowClause w, semicolon] else accessorList w]) s t := by
  have hparameters : Carried σ False (separated (parameter g)) (separated (parameter w)) :=
    .separated hσ.toOpens h.reads h.reads' .parameters .parameters (carried_parameter hσ h)
  have hclose : Carried σ False (expect .closeBracket "`]`") (expect .closeBracket "`]`") :=
    .expect hσ.toOpens rfl
  refine carries_of_readsTo fun rest hrest => ?_
  obtain ⟨s₃, hlist, hbody⟩ := hrest.seq_elim
  obtain ⟨s₁, hopen, hlist⟩ := hlist.node_elim.seq_elim
  obtain ⟨s₂, hseparated, hlist⟩ := hlist.seq_elim
  obtain ⟨s₄, hbracket, hnil⟩ := hlist.seq_elim
  rw [hnil.seq_nil_elim] at hbody
  obtain ⟨t₁, hopen', hst₁⟩ := (Carries.bump_kind hσ.toOpens hst hs rfl).readsTo hopen
  obtain ⟨t₂, hseparated', hst₂⟩ := (hparameters s₁ t₁ hst₁).readsTo hseparated
  obtain ⟨t₃, hbracket', hst₃⟩ := (hclose s₂ t₂ hst₂).readsTo hbracket
  obtain ⟨hkind, hdrop⟩ := hbracket.expect_elim nofun
  obtain ⟨-, hdrop'⟩ := hbracket'.expect_elim nofun
  have hbodies : Carries σ False
      (seq [look fun s => if atKind .arrow s then seq [arrowClause g, semicolon] else accessorList g])
      (seq [look fun s => if atKind .arrow s then seq [arrowClause w, semicolon] else accessorList w])
      s₄ t₃ := by
    refine Carries.seq (.look ?_) trivial
    rw [hst₃.atKind hσ.toOpens (by rfl)]
    refine .ite (carries_arrowBody hσ h hst₃) fun _ => carries_accessorList hσ h hst₃ ?_
    intro hopener hopener'
    exact bracket_behind hσ hst₂ hkind (hdrop ▸ hopener) (hdrop' ▸ hopener')
  obtain ⟨rest', hrest', hst'⟩ := hbodies.readsTo hbody
  exact ⟨rest', .seq_cons (.node (.seq_cons hopen' (.seq_cons hseparated'
    (.seq_cons hbracket' .seq_nil)))) hrest', hst'⟩

theorem carried_typedMember (header header' : List Tree) :
    Carried σ False (typedMember g header) (typedMember w header') := by
  refine fun s t hst => (carried_readType hσ h s t hst).extend fun ty ty' s t _ hst => ?_
  have hstart (hs : (kindAhead 0 s).opens = false) :
      Carries σ False (seq [keep header, keep ty, bump]) (seq [keep header', keep ty', bump]) s t :=
    .keep_seq False.elim (.keep_seq False.elim
      ((Carries.bump hσ.toOpens hst hs False.elim).seq trivial))
  refine .look ?_
  dsimp only
  have hindexer : (atKeyword .kwThis t && kindAhead 1 t == .openBracket) =
      (atKeyword .kwThis s && kindAhead 1 s == .openBracket) := hst.both hσ.toOpens rfl rfl
  rw [hindexer, hst.atWord hσ.toOpens, hst.atKind hσ.toOpens (by rfl)]
  refine .ite (fun hs => .node ?_) fun _ => .ite (fun hs => .node ?_) fun _ =>
    .ite (fun _ => .fail) fun hname => ?_
  · obtain ⟨hthis, hopen⟩ := Bool.and_eq_true_iff.mp hs
    have hkind : kindAhead 0 s = .keyword .kwThis := beq_iff_eq.mp hthis
    refine (hstart (hkind ▸ rfl)).andThen fun _ _ s' t' hok _ hst' => ?_
    rw [Site.kindAhead_drop, ← start_drop (ready_of_kind hkind nofun) ⟨_, hok⟩] at hopen
    exact carries_indexerBody hσ h hst' hopen
  · have hkind : kindAhead 0 s = .identifier := beq_iff_eq.mp (Bool.and_eq_true_iff.mp hs).1
    have hready : Ready s := ready_of_kind hkind nofun
    have hready' : Ready t := ready_of_atWord ((hst.atWord hσ.toOpens _).trans hs)
    refine (hstart (hkind ▸ rfl)).andThen fun _ _ s' t' hok hok' hst' => ?_
    rw [start_drop hready ⟨_, hok⟩, start_drop hready' ⟨_, hok'⟩]
    exact (carries_operatorSigns hσ hst hs).seq
      ⟨carried_parameterList hσ h, carried_methodBody hσ h, trivial⟩
  · have hkind : kindAhead 0 s = .identifier := by simpa [atKind] using hname
    have hopens : (kindAhead 0 s).opens = false := hkind ▸ rfl
    have hready : Ready s := ready_of_kind hkind nofun
    have hfield : Carries σ False
        (node .fieldDeclaration
          (seq [keep header, node .variableDeclaration (seq [keep ty, declarators g]), semicolon]))
        (node .fieldDeclaration
          (seq [keep header', node .variableDeclaration (seq [keep ty', declarators w]), semicolon]))
        s t :=
      .node (.keep_seq False.elim (Carries.seq
        (.node (.keep_seq False.elim ((carried_declarators hσ h s t hst).seq trivial)))
        ⟨carried_semicolon hσ, trivial⟩))
    have hmethod : AllCarried σ False [typeParameters g, parameterList g, constraints, methodBody g]
        [typeParameters w, parameterList w, constraints, methodBody w] :=
      ⟨carried_typeParameters hσ h, carried_parameterList hσ h, carried_constraints hσ,
        carried_methodBody hσ h, trivial⟩
    have hvalue : Carried σ False (whenever (atKind .eq) (seq [equalsValue g, semicolon]))
        (whenever (atKind .eq) (seq [equalsValue w, semicolon])) :=
      .whenever (fun _ _ hst => hst.atKind hσ.toOpens rfl) fun s t hst hs =>
        (carries_equalsValue hσ h hst hs).seq ⟨carried_semicolon hσ, trivial⟩
    rcases hst.second hσ.toOpens hopens with hsecond | ⟨hs, ht⟩
    · rw [hsecond]
      split
      case h_1 => exact .node ((hstart hopens).seq hmethod)
      case h_2 => exact .node ((hstart hopens).seq hmethod)
      case h_3 hbrace =>
        refine .node ((hstart hopens).andThen fun _ _ s' t' hok _ hst' => ?_)
        rw [Site.kindAhead_drop, ← start_drop hready ⟨_, hok⟩] at hbrace
        refine (carries_accessorList hσ h hst' fun hopener _ => ?_).seq ⟨hvalue, trivial⟩
        rw [hopener] at hbrace
        exact absurd hbrace (hσ.kind_ne rfl)
      case h_4 harrow =>
        refine .node ((hstart hopens).andThen fun _ _ s' t' hok _ hst' => ?_)
        rw [Site.kindAhead_drop, ← start_drop hready ⟨_, hok⟩] at harrow
        exact carries_arrowBody hσ h hst' (beq_iff_eq.mpr harrow)
      case h_5 => exact hfield
    · obtain ⟨v, hv, -⟩ := TokenKind.isAccess_iff.mp hs
      obtain ⟨x, hx, -⟩ := TokenKind.isAccess_iff.mp ht
      rw [hv, hx]
      exact hfield

omit h in
theorem atRecord_aligned (hst : σ.Aligned s t) : atRecord t = atRecord s := by
  rw [atRecord, atRecord, hst.atWord hσ.toOpens]
  by_cases hrecord : atWord "record" s = true
  · have hkind : kindAhead 0 s = .identifier := beq_iff_eq.mp (Bool.and_eq_true_iff.mp hrecord).1
    rw [hst.secondIs hσ.toOpens (hkind ▸ rfl) (by rfl), hst.secondIs hσ.toOpens (hkind ▸ rfl) (by rfl),
      hst.secondIs hσ.toOpens (hkind ▸ rfl) rfl]
  · rw [Bool.not_eq_true] at hrecord
    rw [hrecord, Bool.false_and, Bool.false_and]

theorem carried_member : Carried σ False (member g) (member w) := by
  have hheader : Carried σ False (seq [attributes, modifiers]) (seq [attributes, modifiers]) :=
    .seq ⟨carried_attributes hσ, carried_modifiers hσ, trivial⟩
  refine fun s t hst => (hheader s t hst).extend fun header header' s t _ hst => ?_
  have hother : Carries σ False
      (if atRecord s then recordDeclaration g header
        else if atKind .identifier s && kindAhead 1 s == .openParen then constructorDeclaration g header
        else if atConversion s then conversionDeclaration g header
        else typedMember g header)
      (if atRecord t then recordDeclaration w header'
        else if atKind .identifier t && kindAhead 1 t == .openParen then constructorDeclaration w header'
        else if atConversion t then conversionDeclaration w header'
        else typedMember w header') s t := by
    rw [atRecord_aligned hσ hst, hst.both hσ.toOpens (by rfl) (by rfl), atConversion_aligned hσ hst]
    refine .ite (fun hs => ?_) fun _ => .ite (fun hs => ?_) fun _ =>
      .ite (carries_conversionDeclaration hσ h header header' hst) fun _ =>
        carried_typedMember hσ h header header' s t hst
    · have hkind : kindAhead 0 s = .identifier :=
        beq_iff_eq.mp (Bool.and_eq_true_iff.mp (Bool.and_eq_true_iff.mp hs).1).1
      exact carries_recordDeclaration hσ h header header' hst (hkind ▸ rfl)
    · have hkind : kindAhead 0 s = .identifier := beq_iff_eq.mp (Bool.and_eq_true_iff.mp hs).1
      exact carries_constructorDeclaration hσ h header header' hst (hkind ▸ rfl)
  rcases hst.kind hσ.toOpens with hkind | ⟨hs, ht⟩
  · refine .look ?_
    rw [hkind]
    split
    case h_1 hs => exact carries_typeDeclaration hσ h _ header header' hst (hs ▸ rfl)
    case h_2 hs => exact carries_typeDeclaration hσ h _ header header' hst (hs ▸ rfl)
    case h_3 hs => exact carries_typeDeclaration hσ h _ header header' hst (hs ▸ rfl)
    case h_4 hs => exact carries_enumDeclaration hσ h header header' hst (hs ▸ rfl)
    case h_5 hs => exact carries_delegateDeclaration hσ h header header' hst (hs ▸ rfl)
    case h_6 => exact hother
  · refine .look ?_
    obtain ⟨v, hv, hword⟩ := TokenKind.isAccess_iff.mp hs
    obtain ⟨x, hx, hword'⟩ := TokenKind.isAccess_iff.mp ht
    rw [hv, hx]
    cases v <;> first | (cases hword; done) | (cases x <;> first | (cases hword'; done) | exact hother)

/-! ## Namespaces -/

/-- An alias ends with the type that it stands for; no operand of a site can be one. -/
theorem carried_alias : Carried σ False
    (seq [whenever (atKind .eq) (seq [bump, type g]), semicolon])
    (seq [whenever (atKind .eq) (seq [bump, type w]), semicolon]) := by
  intro s t hst
  by_cases hs : atKind .eq s = true
  · have hkind : kindAhead 0 s = .eq := beq_iff_eq.mp hs
    cases hst.step hσ.toOpens with
    | next hx hxy _ hrest =>
      exact Carries.seq (.whenever_true hs ((hst.atKind hσ.toOpens rfl).trans hs)
        (.bump_cons_seq hx (hxy.ne_end hx) False.elim
          ((carried_readType hσ h _ _ hrest).seq trivial))) ⟨carried_semicolon hσ, trivial⟩
    | opener =>
      have hwhole := opensWhole_of_atKind hs rfl
      refine .of_fails fun ts rest hok => ?_
      obtain ⟨mid, ⟨us, halias⟩, hend⟩ := ReadsTo.seq_elim ⟨ts, hok⟩
      rw [whenever, look, if_pos hs] at halias
      obtain ⟨s₁, hbump, htype⟩ := ReadsTo.seq_elim ⟨us, halias⟩
      obtain ⟨s₂, ⟨vs, htype⟩, hnil⟩ := htype.seq_elim
      obtain ⟨rest', hsemicolon, -⟩ := hend.seq_elim
      obtain ⟨_, hbump⟩ := hbump
      rw [(bump_eq (readable_of_atKind hs (by decide)) hbump).1] at htype
      have hends := hσ.swap.old_ahead.type hwhole htype
      have hnone : atKind .semicolon s₂ = false := hends.atKind (by decide) (by decide) (by decide)
      rw [hnil.seq_nil_elim] at hsemicolon
      have hsome := (hsemicolon.expect_elim (by decide)).1
      rw [hnone] at hsome
      cases hsome
    | ends hend _ => exact absurd (hkind.symm.trans hend) (by decide)
  · have hskip : whenever (atKind .eq) (seq [bump, type g]) s = .ok ([], s) := by
      rw [whenever, look, if_neg hs]
      rfl
    have hskip' : whenever (atKind .eq) (seq [bump, type w]) t = .ok ([], t) := by
      rw [whenever, look, hst.atKind hσ.toOpens (by rfl), if_neg hs]
      rfl
    exact .skip_seq hskip hskip' ((carried_semicolon hσ s t hst).seq trivial)

theorem carries_usingDirective (hst : σ.Aligned s t) (hs : atKeyword .kwUsing s = true) :
    Carries σ False (usingDirective g) (usingDirective w) s t := by
  have hstatic : Carried σ False (eat (.keyword .kwStatic)) (eat (.keyword .kwStatic)) :=
    .eat hσ.toOpens rfl
  exact .node ((Carries.bump_kind hσ.toOpens hst hs rfl).andThen fun _ _ s t _ _ hst =>
    (hstatic s t hst).andThen fun _ _ s t _ _ hst =>
      (carried_qualifiedName hσ s t hst).andThen fun _ _ s t _ _ => carried_alias hσ h s t)

theorem carries_namespaceDeclaration (hst : σ.Aligned s t) (hs : atKeyword .kwNamespace s = true) :
    Carries σ False (namespaceDeclaration g) (namespaceDeclaration w) s t := by
  have hname : Carries σ False (seq [bump, qualifiedName]) (seq [bump, qualifiedName]) s t :=
    (Carries.bump_kind hσ.toOpens hst hs rfl).seq ⟨carried_qualifiedName hσ, trivial⟩
  refine hname.extend fun name name' s t _ hst => .look ?_
  rw [hst.atKind hσ.toOpens (by rfl)]
  refine .ite (fun hsemicolon => ?_) fun _ => ?_
  · exact .node (.keep_seq False.elim ((Carries.bump_kind hσ.toOpens hst hsemicolon rfl).seq
      ⟨h.members _ rfl, trivial⟩))
  · have hbody : Carried σ False
        (seq [expect .openBrace "`\x7b` or `;`", g.members .closeBrace, expect .closeBrace "`\x7d`",
          eat .semicolon])
        (seq [expect .openBrace "`\x7b` or `;`", w.members .closeBrace, expect .closeBrace "`\x7d`",
          eat .semicolon]) :=
      .seq ⟨.expect hσ.toOpens rfl, h.members _ rfl, .expect hσ.toOpens rfl, .eat hσ.toOpens rfl,
        trivial⟩
    exact .node (.keep_seq False.elim (hbody s t hst))

theorem carried_namespaceMember : Carried σ False (namespaceMember g) (namespaceMember w) := by
  refine fun s t hst => .look ?_
  rw [hst.atKeyword hσ.toOpens (by rfl), hst.atKeyword hσ.toOpens (by rfl)]
  exact .ite (carries_usingDirective hσ h hst) fun _ =>
    .ite (carries_namespaceDeclaration hσ h hst) fun _ => carried_member hσ h s t hst

theorem carried_members {stop : TokenKind} (hstop : stop.isAccess = false) :
    Carried σ False (members g stop) (members w stop) :=
  .many hσ.toOpens (fun _ _ hst => hst.beforeKind hσ.toOpens hstop)
    (fun _ => (Repeats.namespaceMembers stop).reads h.reads)
    (fun _ => (Repeats.namespaceMembers stop).reads h.reads')
    fun s t hst _ => carried_namespaceMember hσ h s t hst

end Grammar

/-! ## The whole grammar -/

open Grammar

variable {σ : Site} (hσ : σ.Fits)
include hσ

/-- The productions that refer to productions that carry over. -/
theorem Inner.Carried.unfold {g w : Inner} (h : Inner.Carried σ g w) :
    Inner.Carried σ g.unfold w := by
  have hnext : Inner.Carried σ g.unfold w.unfold :=
    { reads := h.reads.unfold
      reads' := h.reads'.unfold
      whole := congrArg Inner.unfold h.whole
      readType := type_eq_whole h.readType
      readType' := type_eq_whole h.readType'
      expression := carried_expression hσ h
      unary := carried_unary hσ h
      coalesce := carried_coalesce hσ h
      binary := carried_binary hσ h
      pattern := carried_pattern hσ h
      negatedPattern := carried_negatedPattern hσ h
      initializer := carried_initializer hσ h
      block := carried_block hσ h
      statement := carried_statement hσ h
      member := carried_member hσ h
      members := fun _ => carried_members hσ h
      atUnary := carries_unary_site hσ h
      atBinary := carries_binary_site hσ h
      atCoalesce := carries_coalesce_site hσ h
      atExpression := carries_expression_site hσ h }
  rwa [h.whole] at hnext

/-- Nothing but types can be read. -/
def Inner.typesOnly : Inner := { Inner.nothing with type := Inner.whole.type }

omit hσ in
theorem Inner.reads_typesOnly : Inner.typesOnly.Reads := by
  intro x s
  cases x with
  | type => exact Inner.reads_whole .type s
  | _ => exact .fail

theorem carried_iterate (n : Nat) : Inner.Carried σ (Inner.unfold^[n] Inner.typesOnly) Inner.whole := by
  induction n with
  | zero =>
    have hfail {q : Production} : Production.Carried σ False (fail "source text") q :=
      fun _ _ _ => .fail
    exact
      { reads := Inner.reads_typesOnly
        reads' := Inner.reads_whole
        whole := Inner.unfold_whole
        readType := rfl
        readType' := rfl
        expression := hfail
        unary := hfail
        coalesce := hfail
        binary := fun _ => hfail
        pattern := hfail
        negatedPattern := hfail
        initializer := hfail
        block := hfail
        statement := hfail
        member := hfail
        members := fun _ _ => hfail
        atUnary := .fail
        atBinary := fun _ => .fail
        atCoalesce := .fail
        atExpression := fun _ => .fail }
  | succ n ih =>
    rw [Function.iterate_succ_apply']
    exact ih.unfold hσ

/-- A run of the whole grammar is one of enough levels above the reading of types. -/
theorem carried_whole {stop : TokenKind} (hstop : stop.isAccess = false) :
    Production.Carried σ False (Inner.whole.members stop) (Inner.whole.members stop) := by
  intro s t hst ts rest hok
  have hlevel := Inner.part_iterate Inner.typesOnly (.members stop) (Nat.lt_succ_self s.length)
  rw [Inner.part_members, Inner.part_members] at hlevel
  rw [← hlevel] at hok
  exact (carried_iterate hσ _).members stop hstop s t hst ts rest hok

/-- Where the old text is accepted, so is the new one. -/
theorem compilationUnit_carried {s t : List Lexeme} {tree : Tree} (hst : σ.Aligned s t)
    (hok : compilationUnit s = .ok tree) : ∃ tree', compilationUnit t = .ok tree' := by
  rw [compilationUnit_eq] at hok ⊢
  cases hread : seq [Inner.whole.members .endOfFile, bump] s with
  | error e =>
    rw [hread] at hok
    cases hok
  | ok read =>
    obtain ⟨mid, hmembers, -⟩ := ReadsTo.seq_elim ⟨read.1, hread⟩
    obtain ⟨mid', hmembers', -⟩ := (carried_whole hσ rfl s t hst).readsTo hmembers
    have hbump : ∃ rest, ReadsTo bump mid' rest := by
      cases mid' with
      | nil => exact ⟨[], [], rfl⟩
      | cons l mid' => exact ⟨_, _, rfl⟩
    obtain ⟨rest, hbump⟩ := hbump
    obtain ⟨us, hus⟩ : ReadsTo (seq [Inner.whole.members .endOfFile, bump]) t rest :=
      .seq_cons hmembers' (.seq_cons hbump .seq_nil)
    exact ⟨.node .compilationUnit us, by rw [hus]; rfl⟩

omit hσ in
/-- Lexemes that are the same but for offsets and words for accessibility are accepted alike. -/
theorem compilationUnit_same {s t : List Lexeme} {tree : Tree} (h : Same s t)
    (hok : compilationUnit s = .ok tree) : ∃ tree', compilationUnit t = .ok tree' := by
  let word : Lexeme := ⟨.bare .identifier "", 0⟩
  let last : Lexeme := ⟨.bare .endOfFile "", 0⟩
  -- both runs stand behind the site, whichever it is
  let σ : Site := ⟨false, ⟨.ofKind .plus, 0⟩, [word] ++ [last],
    [word] ++ ⟨.ofKind .openParen, 0⟩ :: ([word] ++ ⟨.ofKind .closeParen, 0⟩ :: [last])⟩
  have hpath : Path [word] := .mk rfl .none
  have hσ : σ.Fits := ⟨⟨rfl, by decide⟩,
    .operand hpath hpath hpath rfl rfl nofun nofun (.ends rfl rfl)⟩
  exact compilationUnit_carried hσ (.behind h) hok

end SharpLint
