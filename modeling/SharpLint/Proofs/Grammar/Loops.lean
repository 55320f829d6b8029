import SharpLint.Proofs.Grammar.Whole

/-!
# The loops of the grammar

    Round           one round of a loop, with `again` for the rounds behind it
    Advances        a round goes on only where a lexeme less is left
    Loop g          the loops of the grammar `g`, one by one

The loops count their rounds and allow as many as lexemes are left. That is never too few: each round
reads a lexeme (`Loop.advances`), so that a loop is the only solution of its own equation, in which nothing
is counted (`Loop.solves_iff`). The equation is asked for where the lexemes end with the end of the text,
as those of a text do; behind the end, where no lexeme is left, a round would still find the end.
-/

namespace SharpLint

/-- The lexemes end with the end of the text. -/
def Ended (s : List Lexeme) : Prop := s.getLast?.map (·.token.kind) = some .endOfFile

theorem Ended.ne_nil {s : List Lexeme} (h : Ended s) : s ≠ [] := by
  rintro rfl
  cases h

/-- The end of the text is not read, so that it ends what is left. -/
theorem Ended.of_readsFrom {k : Nat} {s rest : List Lexeme} (hs : Ended s) (h : ReadsFrom k s rest) :
    Ended rest := by
  obtain ⟨read, rfl, -, hread⟩ := h
  rw [Ended, List.getLast?_append] at hs
  cases hrest : rest.getLast? with
  | some l => rwa [hrest, Option.some_or, ← hrest] at hs
  | none =>
    rw [hrest, Option.none_or, Option.map_eq_some_iff] at hs
    obtain ⟨l, hl, hend⟩ := hs
    exact absurd hend (hread l (List.mem_of_getLast? hl))

/-! ## Congruence

Productions put together from parts that are the same at the places where they run. -/

namespace Production

variable {p q q' : Production} {test : List Lexeme → Bool} {s : List Lexeme}

theorem whenever_congr (h : test s = true → q s = q' s) : whenever test q s = whenever test q' s := by
  by_cases hs : test s = true
  · rw [whenever, whenever, look, look, if_pos hs, if_pos hs, h hs]
  · rw [whenever, whenever, look, look, if_neg hs, if_neg hs]

theorem andThen_congr (h : ∀ ts rest, p s = .ok (ts, rest) → q rest = q' rest) :
    andThen p q s = andThen p q' s := by
  rw [andThen, andThen]
  cases hok : p s with
  | error e => rfl
  | ok read =>
    dsimp only
    rw [h read.1 read.2 hok]

theorem andThen_congr_left (h : q s = q' s) : andThen q p s = andThen q' p s := by
  rw [andThen, andThen, h]

theorem extend_congr {next next' : List Tree → Production}
    (h : ∀ ts rest, p s = .ok (ts, rest) → next ts rest = next' ts rest) :
    extend p next s = extend p next' s := by
  rw [extend, extend]
  cases hok : p s with
  | error e => rfl
  | ok read => exact h read.1 read.2 hok

end Production

/-! ## Rounds -/

open Production

/-- One round of a loop behind trees to the left, with `again` for the rounds behind it. -/
abbrev Round := (List Tree → Production) → List Tree → Production

namespace Round

variable {round : Round} {upTo : Nat → List Tree → Production} {test : List Lexeme → Bool}
  {p : Production} {suffix : Suffix} {left : List Tree} {s : List Lexeme} {m n : Nat}

/-- A round of `many`. -/
def many (test : List Lexeme → Bool) (p : Production) : Round := fun again left =>
  whenever test (andThen p (again left))

/-- A round of `items`. -/
def items (test : List Lexeme → Bool) (item : Production) : Round := fun again left =>
  whenever test (seq [item, whenever (atKind .comma) (seq [bump, again left])])

/-- A round of `chain`. -/
def chain (suffix : Suffix) : Round := fun again left => look fun s =>
  match suffix s with
  | none => keep left
  | some (kind, tail) => extend (node kind (seq [keep left, tail])) again

/-- What a round does depends on the rounds behind it only where a lexeme less is left. -/
def Advances (round : Round) : Prop :=
  ∀ again again' s, (∀ rest, ReadsFrom 1 s rest → ∀ left, again left rest = again' left rest) →
    ∀ left, round again left s = round again' left s

/-- `q` goes round: it is one round and then `q` again. -/
def Solves (round : Round) (q : List Tree → Production) : Prop :=
  ∀ left s, Ended s → q left s = round q left s

/-! ## Rounds that are enough -/

section

variable (h : round.Advances) (hupTo : ∀ n, upTo (n + 1) = round (upTo n))
include h hupTo

/-- A solution makes as many rounds as are allowed, if that is one for each lexeme. -/
theorem Solves.eq_upTo {q : List Tree → Production} (hq : round.Solves q) (hs : Ended s)
    (hn : s.length ≤ n) : q left s = upTo n left s := by
  induction n generalizing left s with
  | zero => exact absurd (List.length_eq_zero_iff.mp (Nat.le_zero.mp hn)) hs.ne_nil
  | succ n ih =>
    rw [hq left s hs, hupTo]
    refine h q (upTo n) s (fun rest hread left => ih (hs.of_readsFrom hread) ?_) left
    have := hread.length_add_le
    omega

/-- More rounds than there are lexemes make no difference. -/
theorem upTo_eq_upTo (hs : Ended s) (hn : s.length ≤ n) (hm : s.length ≤ m) :
    upTo n left s = upTo m left s := by
  induction n generalizing left s m with
  | zero => exact absurd (List.length_eq_zero_iff.mp (Nat.le_zero.mp hn)) hs.ne_nil
  | succ n ih =>
    cases m with
    | zero => exact absurd (List.length_eq_zero_iff.mp (Nat.le_zero.mp hm)) hs.ne_nil
    | succ m =>
      rw [hupTo, hupTo]
      refine h (upTo n) (upTo m) s (fun rest hread left => ?_) left
      have := hread.length_add_le
      exact ih (hs.of_readsFrom hread) (by omega) (by omega)

theorem solves_upTo : round.Solves fun left s => upTo s.length left s := by
  intro left s hs
  obtain ⟨l, tail, rfl⟩ := List.exists_cons_of_ne_nil hs.ne_nil
  have hround : upTo (l :: tail).length = round (upTo tail.length) := hupTo tail.length
  dsimp only
  rw [hround]
  refine h _ _ (l :: tail) (fun rest hread left => ?_) left
  have hlength := hread.length_add_le
  rw [List.length_cons] at hlength
  exact upTo_eq_upTo h hupTo (hs.of_readsFrom hread) (Nat.le_of_add_le_add_right hlength) (Nat.le_refl _)

/-- Among all that goes round, a loop with a round for each lexeme is the only one. -/
theorem solves_iff {q : List Tree → Production} :
    round.Solves q ↔ ∀ left s, Ended s → q left s = upTo s.length left s := by
  constructor
  · exact fun hq left s hs => hq.eq_upTo h hupTo hs (Nat.le_refl _)
  · intro hq left s hs
    rw [hq left s hs]
    refine (solves_upTo h hupTo left s hs).trans ?_
    exact h _ _ s (fun rest hread left => (hq left rest (hs.of_readsFrom hread)).symm) left

end

/-! ## Rounds that read -/

theorem advances_many (h : ∀ s, test s = true → InStepAt 1 p p s) : (many test p).Advances := by
  intro again again' s hagain left
  exact whenever_congr fun hs => andThen_congr fun ts rest hok =>
    hagain rest ((h s hs).reads ts rest hok) left

/-- The comma behind an item is read as well. -/
theorem advances_items (h : ∀ s, test s = true → InStepAt 1 p p s) : (items test p).Advances := by
  intro again again' s hagain left
  refine whenever_congr fun hs => andThen_congr fun ts rest hok => andThen_congr_left ?_
  refine whenever_congr fun hcomma => andThen_congr fun us next hbump => andThen_congr_left ?_
  have hitem := (h s hs).reads ts rest hok
  have hsign := (InStepAt.bump (ready_of_atKind hcomma nofun)).reads us next hbump
  exact hagain next ((hitem.trans hsign).mono (Nat.le_succ 1)) left

theorem advances_chain (h : ∀ s kind tail, suffix s = some (kind, tail) → InStepAt 1 tail tail s) :
    (chain suffix).Advances := by
  intro again again' s hagain left
  rw [chain, chain, look, look]
  cases hsuffix : suffix s with
  | none => rfl
  | some found =>
    obtain ⟨kind, tail⟩ := found
    have hnode : InStepAt 1 (node kind (seq [keep left, tail])) (node kind (seq [keep left, tail])) s :=
      (h s kind tail hsuffix).operand
    exact extend_congr fun ts rest hok => hagain rest (hnode.reads ts rest hok) ts

end Round

/-! ## The loops -/

namespace Grammar

/-- What stands between commas. -/
inductive Separates (g : Inner) : Production → Prop
  | typeArguments : Separates g g.type
  | parameters : Separates g (parameter g)
  | lambdaParameters :
      Separates g (look fun s =>
        if atKind .identifier s && (kindAhead 1 s == .comma || kindAhead 1 s == .closeParen) then
          node .parameter bump
        else parameter g)
  | arguments (close : TokenKind) : Separates g (argument g close)
  | declarators :
      Separates g (node .variableDeclarator
        (seq [expect .identifier "variable name", whenever (atKind .eq) (equalsValue g)]))
  | expressions : Separates g (expression g)
  | baseTypes : Separates g (seq [type g, whenever (atKind .openParen) (argumentList g)])

/-- What `many` repeats, and as long as what stands next. -/
inductive Repeats (g : Inner) : (List Lexeme → Bool) → Production → Prop
  | nameParts : Repeats g atDotName (seq [bump, node .identifierName bump])
  | typeNameParts : Repeats g atDotName (seq [bump, simpleTypeName g])
  | rankCommas : Repeats g (atKind .comma) bump
  | ranks : Repeats g atRank rank
  | moreItems {item : Production} (h : Separates g item) :
      Repeats g (atKind .comma) (seq [bump, item])
  | attributeLists :
      Repeats g (atKind .openBracket) (node .attributeList (seq [bump, insideBrackets 0, bump]))
  | modifiers : Repeats g (fun s => (kindAhead 0 s).keyword?.any Keyword.isModifier) bump
  | parameterModifiers : Repeats g atParameterModifier bump
  | lengths :
      Repeats g (fun s => !atKind .closeBracket s)
        (seq [look fun s => if atKind .comma s then bump else g.expression,
          look fun s => if atEnd s then fail "`]`" else empty])
  | lengthLists : Repeats g (atKind .openBracket) (Grammar.lengths g)
  | stringParts :
      Repeats g (fun s => atKind .interpolatedStringText s || atKind .openBrace s)
        (look fun s =>
          if atKind .interpolatedStringText s then node .interpolatedStringText bump
          else interpolation g)
  | blockStatements : Repeats g (before .closeBrace) g.statement
  | switchLabels : Repeats g atSwitchLabel (switchLabel g)
  | sectionStatements :
      Repeats g (fun s => before .closeBrace s && !atSwitchLabel s) g.statement
  | switchSections : Repeats g (before .closeBrace) (switchSection g)
  | catchClauses : Repeats g (atKeyword .kwCatch) (catchClause g)
  | constraints : Repeats g (fun s => !atBody s) bump
  | accessors :
      Repeats g (before .closeBrace)
        (node .accessorDeclaration (seq [attributes, Grammar.modifiers,
          expect .identifier "`get`, `set` or `init`", methodBody g]))
  | typeMembers : Repeats g (before .closeBrace) g.member
  | operatorSigns : Repeats g (before .openParen) bump
  | namespaceMembers (stop : TokenKind) : Repeats g (before stop) (namespaceMember g)

/-- What `items` lists, and as long as what stands next. -/
inductive Lists (g : Inner) : (List Lexeme → Bool) → Production → Prop
  | elements :
      Lists g (fun s => !atKind .closeBrace s)
        (look fun s => if atKind .openBrace s then g.initializer else g.expression)
  | switchArms :
      Lists g (before .closeBrace)
        (node .switchExpressionArm (seq [g.pattern, whenClause g, expect .arrow "`=>`", g.expression]))
  | enumMembers :
      Lists g (before .closeBrace)
        (node .enumMemberDeclaration (seq [attributes, expect .identifier "enum member",
          whenever (atKind .eq) (equalsValue g)]))

/-- What `chain` puts behind an operand. -/
inductive Chains (g : Inner) : Suffix → Prop
  | primary : Chains g (postfixSuffix g)
  | switch : Chains g (switchSuffix g)
  | binary (least : Nat) : Chains g (binarySuffix g least)
  | conjunction :
      Chains g fun s =>
        if atWord "and" s then some (.andPattern, seq [bump, negatedPattern g]) else none
  | disjunction :
      Chains g fun s =>
        if atWord "or" s then
          some (.orPattern, seq [bump, chain (negatedPattern g) fun s =>
            if atWord "and" s then some (.andPattern, seq [bump, negatedPattern g]) else none])
        else none

/-- The loops of a grammar: a round, and the loop behind trees to the left. -/
inductive Loop (g : Inner) : Round → (List Tree → Production) → Prop
  | many {test : List Lexeme → Bool} {p : Production} (h : Repeats g test p) :
      Loop g (.many test p) fun _ => Production.many test p
  | items {test : List Lexeme → Bool} {item : Production} (h : Lists g test item) :
      Loop g (.items test item) fun _ => Production.items test item
  | chain {suffix : Suffix} (h : Chains g suffix) :
      Loop g (.chain suffix) fun left => look fun s => chainUpTo suffix s.length left

/-! ## Each round reads a lexeme -/

section

variable {s : List Lexeme} {test : List Lexeme → Bool} {p : Production}

theorem Separates.inStep {g : Inner} (hg : g.Reads) (h : Separates g p) (n : Nat) :
    InStep n 0 p p := by
  have hg := hg.inStep n
  cases h with
  | typeArguments => exact hg.type
  | parameters => exact (inStep_parameter hg).part
  | lambdaParameters =>
    exact .look fun s hs => .ite (fun _ => .node (InStep.bump s hs)) fun _ =>
      (inStep_parameter hg).part s hs
  | arguments close => exact inStep_argument hg close
  | declarators => exact .node (.all ⟨.sign nofun, inStep_defaultValue hg, trivial⟩)
  | expressions => exact (inStep_expression hg).part
  | baseTypes =>
    exact .all ⟨(inStep_type hg).part, .wheneverPart (inStep_argumentList hg).part, trivial⟩

theorem Repeats.reads {g : Inner} (hreads : g.Reads) (h : Repeats g test p) (hs : test s = true) :
    InStepAt 1 p p s := by
  have hn := Nat.lt_succ_self s.length
  have hg := hreads.inStep s.length
  cases h with
  | nameParts =>
    exact .seq hn (.bump (ready_of_atDotName s hs)) ⟨.node .bump, trivial⟩
  | typeNameParts =>
    exact .seq hn (.bump (ready_of_atDotName s hs)) ⟨(inStep_simpleTypeName hg).part, trivial⟩
  | rankCommas => exact .bump (ready_of_atKind hs (by decide))
  | ranks => exact inStepReady_rank s hn (ready_of_atRank s hs)
  | moreItems h => exact .seq hn (.bump (ready_of_atKind hs (by decide))) ⟨h.inStep hreads _, trivial⟩
  | attributeLists =>
    exact .node (.seq hn (.bump (ready_of_atKind hs (by decide)))
      ⟨inStep_insideBrackets 0, .bump, trivial⟩)
  | modifiers => exact .bump (ready_of_keyword? hs)
  | parameterModifiers =>
    exact .bump fun hend => by simp [atParameterModifier, hend, TokenKind.keyword?] at hs
  | lengths =>
    refine .seq hn (.look (.ite (fun hcomma => .bump (ready_of_atKind hcomma (by decide))) fun _ => ?_))
      ⟨.look fun s hs => .ite (fun _ => .fail) fun _ => InStep.empty s hs, trivial⟩
    exact hreads .expression s
  | lengthLists => exact inStepReady_lengths hg s hn (ready_of_atKind hs (by decide))
  | stringParts =>
    refine .look (.ite (fun htext => .node (.bump (ready_of_atKind htext (by decide)))) fun htext => ?_)
    have hopen : atKind .openBrace s = true := by simpa [htext] using hs
    exact inStepReady_interpolation hg s hn (ready_of_atKind hopen (by decide))
  | blockStatements => exact hreads .statement s
  | switchLabels => exact inStepReady_switchLabel hg s hn (ready_of_atSwitchLabel s hs)
  | sectionStatements => exact hreads .statement s
  | switchSections => exact inStep_switchSection hg s hn
  | catchClauses => exact inStepReady_catchClause hg s hn (ready_of_atKeyword hs)
  | constraints => exact .bump fun hend => by simp [atBody, atEnd, atKind, hend] at hs
  | accessors =>
    have haccessor : InStep (s.length + 1) 1
        (seq [expect .identifier "`get`, `set` or `init`", methodBody g])
        (seq [expect .identifier "`get`, `set` or `init`", methodBody g]) :=
      .seq (.expect (by decide)) ⟨inStep_methodBody hg, trivial⟩
    exact InStep.node (.after inStep_attributes (.after inStep_modifiers haccessor)) s hn
  | typeMembers => exact hreads .member s
  | operatorSigns => exact .bump (ready_of_before hs)
  | namespaceMembers stop => exact inStep_namespaceMember hg s hn

/-- A loop goes on until its test fails. -/
theorem Repeats.stops {g : Inner} (hreads : g.Reads) (h : Repeats g test p) {ts : List Tree}
    {rest : List Lexeme} (hok : many test p s = .ok (ts, rest)) : rest = [] ∨ test rest = false := by
  suffices hrounds : ∀ n s ts rest, manyUpTo test p n s = .ok (ts, rest) → s.length ≤ n →
      rest = [] ∨ test rest = false from
    hrounds _ _ _ _ hok (Nat.le_refl _)
  intro n
  induction n with
  | zero =>
    intro s ts rest hok hn
    rw [(keep_eq_ok hok).2]
    exact .inl (List.length_eq_zero_iff.mp (Nat.le_zero.mp hn))
  | succ n ih =>
    intro s ts rest hok hn
    simp only [manyUpTo, whenever, look] at hok
    split at hok
    · rename_i htest
      obtain ⟨ts₁, mid, ts₂, hround, hothers, -⟩ := andThen_eq_ok hok
      have hless := ((h.reads hreads htest).reads ts₁ mid hround).length_add_le
      exact ih _ _ _ hothers (by omega)
    · rename_i hfalse
      rw [(keep_eq_ok hok).2]
      exact .inr (Bool.eq_false_iff.mpr hfalse)

theorem Lists.reads {g : Inner} (hreads : g.Reads) (h : Lists g test p) (s : List Lexeme) :
    InStepAt 1 p p s := by
  have hn := Nat.lt_succ_self s.length
  have hg := hreads.inStep s.length
  cases h with
  | elements =>
    exact .look (.ite (fun _ => hreads .initializer s) fun _ =>
      hreads .expression s)
  | switchArms =>
    exact .node (.seq hn (hreads .pattern s)
      ⟨inStep_whenClause hg, .sign nofun, hg.expression, trivial⟩)
  | enumMembers =>
    have hmember : InStep (s.length + 1) 1
        (seq [expect .identifier "enum member", whenever (atKind .eq) (equalsValue g)])
        (seq [expect .identifier "enum member", whenever (atKind .eq) (equalsValue g)]) :=
      .seq (.expect nofun) ⟨inStep_defaultValue hg, trivial⟩
    exact InStep.node (.after inStep_attributes hmember) s hn

theorem Chains.inStep {g : Inner} {suffix : Suffix} (hg : g.Reads) (h : Chains g suffix) (n : Nat) :
    SuffixInStep n suffix suffix := by
  have hg := hg.inStep n
  cases h with
  | primary => exact postfixSuffix_inStep hg
  | switch => exact switchSuffix_inStep hg
  | binary least => exact binarySuffix_inStep hg least
  | conjunction =>
    exact .ite (fun _ => ready_of_atWord) (.seq .bump ⟨(inStep_negatedPattern hg).part, trivial⟩)
  | disjunction =>
    exact .ite (fun _ => ready_of_atWord) (.seq .bump ⟨(inStep_conjunction hg).part, trivial⟩)

theorem Chains.reads {g : Inner} {suffix : Suffix} (hg : g.Reads) (h : Chains g suffix)
    {kind : NodeKind} {tail : Production} (hsuffix : suffix s = some (kind, tail)) :
    InStepAt 1 tail tail s := by
  obtain ⟨hnone, -⟩ | ⟨kind', tail', tail'', hsome, hsome', htail⟩ :=
    h.inStep hg (s.length + 1) s (Nat.lt_succ_self _)
  · rw [hnone] at hsuffix
    cases hsuffix
  · rw [hsuffix] at hsome hsome'
    cases hsome
    cases hsome'
    exact htail

end

section

variable {round : Round} {loop : List Tree → Production}

theorem Loop.advances (h : Loop .whole round loop) : round.Advances := by
  have hreads := Inner.reads_whole
  cases h with
  | many h => exact Round.advances_many fun s => h.reads hreads
  | items h => exact Round.advances_items fun s _ => h.reads hreads s
  | chain h => exact Round.advances_chain fun s kind tail => h.reads hreads

/-- A loop allows as many rounds as lexemes are left. -/
theorem Loop.exists_upTo {g : Inner} (h : Loop g round loop) :
    ∃ upTo : Nat → List Tree → Production, (∀ n, upTo (n + 1) = round (upTo n)) ∧
      ∀ left s, loop left s = upTo s.length left s := by
  cases h with
  | many h => exact ⟨fun n _ => manyUpTo _ _ n, fun _ => rfl, fun _ _ => rfl⟩
  | items h => exact ⟨fun n _ => itemsUpTo _ _ n, fun _ => rfl, fun _ _ => rfl⟩
  | chain h => exact ⟨chainUpTo _, fun _ => rfl, fun _ _ => rfl⟩

/-- Nothing else goes round like a loop of the grammar. -/
theorem Loop.solves_iff (h : Loop .whole round loop) {q : List Tree → Production} :
    round.Solves q ↔ ∀ left s, Ended s → q left s = loop left s := by
  obtain ⟨upTo, hupTo, hloop⟩ := h.exists_upTo
  simp only [hloop]
  exact Round.solves_iff h.advances hupTo

end

end Grammar

end SharpLint
