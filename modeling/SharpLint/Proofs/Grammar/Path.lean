import SharpLint.Proofs.Grammar.InStepExpression

/-!
# Reading a dotted path

A path is a name, a number, `this`, `base` or a built-in type, with names behind dots:

    x      this.F      float.MaxValue      1f.ToString

An operand goes over all of it and then on with what follows (`chain_path`), a type does not get further
(`type_path`), and as an argument it is read to its end (`readsTo_argument`).
-/

namespace SharpLint

open Production Grammar

/-- Lexemes that a path can start with. -/
def TokenKind.startsPath : TokenKind → Bool
  | .identifier | .numericLiteral | .keyword .kwThis | .keyword .kwBase => true
  | k => k.keyword?.any Keyword.isPredefinedType

/-- Names behind dots. -/
inductive Dotted : List Lexeme → Prop
  | none : Dotted []
  | more {dot name : Lexeme} {names : List Lexeme} : dot.token.kind = .dot →
      name.token.kind = .identifier → Dotted names → Dotted (dot :: name :: names)

inductive Path : List Lexeme → Prop
  | mk {head : Lexeme} {names : List Lexeme} : head.token.kind.startsPath = true → Dotted names →
      Path (head :: names)

namespace Production

/-- From `s`, the production reads up to `rest`. -/
def ReadsTo (p : Production) (s rest : List Lexeme) : Prop := ∃ ts, p s = .ok (ts, rest)

namespace ReadsTo

variable {p q : Production} {ps : List Production} {s mid rest : List Lexeme} {kind : NodeKind}
  {suffix : Suffix}

theorem bump {l : Lexeme} (hl : l.token.kind ≠ .endOfFile) : ReadsTo bump (l :: s) s :=
  ⟨[.token l.token], by rw [Production.bump, if_neg hl]⟩

theorem node (h : ReadsTo p s rest) : ReadsTo (node kind p) s rest := by
  obtain ⟨ts, hts⟩ := h
  exact ⟨[.node kind ts], by rw [Production.node, hts]⟩

theorem seq_nil : ReadsTo (seq []) s s := ⟨[], rfl⟩

theorem seq_cons (hp : ReadsTo p s mid) (h : ReadsTo (seq ps) mid rest) :
    ReadsTo (seq (p :: ps)) s rest := by
  obtain ⟨ts, hts⟩ := hp
  obtain ⟨us, hus⟩ := h
  refine ⟨ts ++ us, ?_⟩
  show andThen p (seq ps) s = _
  simp only [andThen, hts, hus]

theorem node_elim (h : ReadsTo (Production.node kind p) s rest) : ReadsTo p s rest := by
  obtain ⟨ts, hts⟩ := h
  obtain ⟨us, hus, -⟩ := node_eq_ok hts
  exact ⟨us, hus⟩

theorem seq_elim (h : ReadsTo (seq (p :: ps)) s rest) :
    ∃ mid, ReadsTo p s mid ∧ ReadsTo (seq ps) mid rest := by
  obtain ⟨ts, hts⟩ := h
  obtain ⟨us, mid, vs, hus, hvs, -⟩ := andThen_eq_ok hts
  exact ⟨mid, ⟨us, hus⟩, vs, hvs⟩

theorem seq_nil_elim (h : ReadsTo (seq []) s rest) : rest = s := by
  obtain ⟨ts, hts⟩ := h
  exact (keep_eq_ok hts).2

theorem expect_elim {k : TokenKind} {what : String} (h : ReadsTo (Production.expect k what) s rest)
    (hk : k ≠ .endOfFile) : atKind k s = true ∧ rest = s.drop 1 := by
  obtain ⟨ts, hts⟩ := h
  by_cases hs : atKind k s = true
  · rw [Production.expect, look, if_pos hs] at hts
    exact ⟨hs, (bump_eq (readable_of_atKind hs hk) hts).1⟩
  · rw [Production.expect, look, if_neg hs] at hts
    cases hts

theorem expect {k : TokenKind} {what : String} {l : Lexeme} (hl : l.token.kind = k)
    (hk : k ≠ .endOfFile) : ReadsTo (expect k what) (l :: s) s := by
  have hat : atKind k (l :: s) = true := beq_iff_eq.mpr hl
  obtain ⟨ts, hts⟩ := bump (s := s) (hl ▸ hk)
  exact ⟨ts, by rw [Production.expect, look, if_pos hat, hts]⟩

theorem whenever_false {test : List Lexeme → Bool} (hs : test s = false) :
    ReadsTo (whenever test p) s s :=
  ⟨[], by rw [whenever, look, hs]; rfl⟩

theorem whenever_true {test : List Lexeme → Bool} (hs : test s = true) (h : ReadsTo p s rest) :
    ReadsTo (whenever test p) s rest := by
  obtain ⟨ts, hts⟩ := h
  exact ⟨ts, by rw [whenever, look, if_pos hs, hts]⟩

theorem manyUpTo_false {test : List Lexeme → Bool} (hs : test s = false) (n : Nat) :
    ReadsTo (manyUpTo test p n) s s := by
  cases n with
  | zero => exact ⟨[], rfl⟩
  | succ n => exact whenever_false hs

theorem many_false {test : List Lexeme → Bool} (hs : test s = false) : ReadsTo (many test p) s s :=
  manyUpTo_false hs s.length

theorem separated_one (h : ReadsTo p s rest) (hrest : atKind .comma rest = false) :
    ReadsTo (separated p) s rest :=
  .seq_cons h (.seq_cons (.many_false hrest) .seq_nil)

theorem unique {ts : List Tree} {rest' : List Lexeme} (h : ReadsTo p s rest)
    (hok : p s = .ok (ts, rest')) : rest' = rest := by
  obtain ⟨us, hus⟩ := h
  rw [hus] at hok
  exact (Prod.mk.inj (Except.ok.inj hok)).2.symm

theorem suffixed_none (h : ReadsTo p s rest) (hnone : suffix rest = none) :
    ReadsTo (extend p (suffixed suffix)) s rest := by
  obtain ⟨ts, hts⟩ := h
  refine ⟨ts, ?_⟩
  simp only [extend, hts, suffixed, look, hnone, keep]

theorem suffixed_some {tail : Production} (h : ReadsTo p s mid)
    (hsuffix : suffix mid = some (kind, tail)) (htail : ReadsTo tail mid rest) :
    ReadsTo (extend p (suffixed suffix)) s rest := by
  obtain ⟨ts, hts⟩ := h
  obtain ⟨us, hus⟩ := htail
  refine ⟨[.node kind (ts ++ (us ++ []))], ?_⟩
  simp only [extend, hts, suffixed, look, hsuffix, Production.node, seq, andThen, keep, hus, empty]

theorem chainUpTo_none (n : Nat) (left : List Tree) (hnone : suffix s = none) :
    ReadsTo (chainUpTo suffix n left) s s := by
  cases n with
  | zero => exact ⟨left, rfl⟩
  | succ n => exact ⟨left, by simp only [chainUpTo, look, hnone, keep]⟩

theorem chain_none (h : ReadsTo p s rest) (hnone : suffix rest = none) :
    ReadsTo (chain p suffix) s rest := by
  obtain ⟨ts, hts⟩ := h
  obtain ⟨us, hus⟩ := chainUpTo_none rest.length ts hnone
  exact ⟨us, by simp only [chain, extend, hts, look, hus]⟩

/-- One round of a chain. -/
theorem chainUpTo_succ {tail : Production} (hsuffix : suffix s = some (kind, tail))
    (h : ReadsTo tail s rest) (n : Nat) (left : List Tree) :
    ∃ left', chainUpTo suffix (n + 1) left s = chainUpTo suffix n left' rest := by
  obtain ⟨ts, hts⟩ := h
  refine ⟨[.node kind (left ++ (ts ++ []))], ?_⟩
  simp only [chainUpTo, look, hsuffix, extend, Production.node, seq, andThen, keep, hts, empty]

end ReadsTo

end Production

/-! ## What stands in a path and behind it -/

section

variable {path s : List Lexeme}

theorem Path.ne_nil (h : Path path) : path ≠ [] := by
  cases h
  exact List.cons_ne_nil _ _

theorem Path.kind (h : Path path) (s : List Lexeme) : (kindAhead 0 (path ++ s)).startsPath = true := by
  cases h with
  | mk hhead _ => exact hhead

theorem Path.atKind (h : Path path) (s : List Lexeme) {k : TokenKind}
    (hk : k.startsPath = false) : atKind k (path ++ s) = false := by
  rw [SharpLint.atKind, beq_eq_false_iff_ne]
  rintro rfl
  rw [h.kind s] at hk
  cases hk

/-- A path is one lexeme, or has a dot behind the first. -/
theorem Path.second (h : Path path) (s : List Lexeme) :
    kindAhead 1 (path ++ s) = .dot ∨ kindAhead 1 (path ++ s) = kindAhead 0 s := by
  cases h with
  | mk _ hnames =>
    cases hnames with
    | none => exact .inr (by simp [kindAhead])
    | more hdot _ _ => exact .inl (by simp [kindAhead, hdot])

theorem Path.secondIs (h : Path path) {k : TokenKind} (hk : k ≠ .dot) (hs : kindAhead 0 s ≠ k) :
    (kindAhead 1 (path ++ s) == k) = false := by
  rw [beq_eq_false_iff_ne]
  rcases h.second s with hsecond | hsecond
  · rw [hsecond]
    exact hk.symm
  · rwa [hsecond]

theorem Dotted.kind (h : Dotted path) (s : List Lexeme) :
    kindAhead 0 (path ++ s) = .dot ∨ kindAhead 0 (path ++ s) = kindAhead 0 s := by
  cases h with
  | none => exact .inr rfl
  | more hdot _ _ => exact .inl hdot

end

namespace Grammar

variable {g : Inner} {path s : List Lexeme}

/-! ## As an operand -/

theorem readsTo_primary {l : Lexeme} (hl : l.token.kind.startsPath = true) :
    ReadsTo (primary g) (l :: s) s := by
  have hend : l.token.kind ≠ .endOfFile := by
    intro hend
    rw [hend] at hl
    cases hl
  have hnode : ∃ kind, primary g (l :: s) = node kind bump (l :: s) := by
    have hkind : kindAhead 0 (l :: s) = l.token.kind := rfl
    unfold primary look
    beta_reduce
    rw [hkind]
    generalize l.token.kind = k at hl
    cases k with
    | identifier => exact ⟨_, rfl⟩
    | numericLiteral => exact ⟨_, rfl⟩
    | keyword w => cases w <;> first | exact ⟨_, rfl⟩ | cases hl
    | _ => cases hl
  obtain ⟨kind, hnode⟩ := hnode
  obtain ⟨ts, hts⟩ : ReadsTo (node kind bump) (l :: s) s := .node (.bump hend)
  exact ⟨ts, hnode.trans hts⟩

theorem postfixSuffix_dot {s : List Lexeme} (hs : kindAhead 0 s = .dot) :
    postfixSuffix g s = some (.simpleMemberAccessExpression,
      seq [bump, node .identifierName (expect .identifier "member name")]) := by
  simp only [postfixSuffix, hs]

theorem chainUpTo_dotted (h : Dotted path) (s : List Lexeme) {n : Nat}
    (hn : (path ++ s).length ≤ n) (left : List Tree) :
    ∃ left' m, s.length ≤ m ∧ chainUpTo (postfixSuffix g) n left (path ++ s) =
      chainUpTo (postfixSuffix g) m left' s := by
  induction h generalizing n left with
  | none => exact ⟨left, n, hn, rfl⟩
  | @more dot name names hdot hname hnames ih =>
    cases n with
    | zero => exact absurd hn (Nat.not_succ_le_zero _)
    | succ n =>
      have htail : ReadsTo (seq [bump, node .identifierName (expect .identifier "member name")])
          (dot :: name :: (names ++ s)) (names ++ s) :=
        .seq_cons (.bump (hdot ▸ nofun)) (.seq_cons (.node (.expect hname nofun)) .seq_nil)
      obtain ⟨left₁, hround⟩ :=
        htail.chainUpTo_succ (postfixSuffix_dot (g := g) (s := dot :: name :: (names ++ s)) hdot) n left
      have hlength : (names ++ s).length ≤ n := by
        simp only [List.cons_append, List.length_cons] at hn
        omega
      obtain ⟨left', m, hm, hmore⟩ := ih hlength left₁
      exact ⟨left', m, hm, hround.trans hmore⟩

/-- An operand that starts with a path goes on behind it. -/
theorem chain_path (h : Path path) (s : List Lexeme) :
    ∃ left n, s.length ≤ n ∧ chain (primary g) (postfixSuffix g) (path ++ s) =
      chainUpTo (postfixSuffix g) n left s := by
  cases h with
  | @mk head names hhead hnames =>
    obtain ⟨ts, hts⟩ := readsTo_primary (g := g) (s := names ++ s) hhead
    obtain ⟨left, n, hn, hmore⟩ := chainUpTo_dotted (g := g) hnames s (Nat.le_refl _) ts
    refine ⟨left, n, hn, ?_⟩
    rw [← hmore]
    show chain _ _ (head :: (names ++ s)) = _
    simp only [chain, extend, hts, look]

theorem unary_path (h : Path path) (s : List Lexeme) :
    unary g (path ++ s) = chain (primary g) (postfixSuffix g) (path ++ s) := by
  have hkind := h.kind s
  unfold unary
  rw [look]
  generalize kindAhead 0 (path ++ s) = k at hkind
  cases k <;> first | rfl | cases hkind

/-! ## As an argument -/

theorem atByReference_path (h : Path path) (s : List Lexeme) : atByReference (path ++ s) = false := by
  have hword (k : Keyword) (hk : (TokenKind.keyword k).startsPath = false) :
      atKeyword k (path ++ s) = false := h.atKind s hk
  rw [atByReference, hword .kwRef rfl, hword .kwOut rfl, hword .kwIn rfl]
  rfl

/-- Behind an argument stands a comma or the closing parenthesis. -/
def AtArgumentEnd (s : List Lexeme) : Prop := kindAhead 0 s = .closeParen ∨ kindAhead 0 s = .comma

theorem AtArgumentEnd.kind_ne (hs : AtArgumentEnd s) {k : TokenKind} (hk : k ≠ .closeParen)
    (hk' : k ≠ .comma) : kindAhead 0 s ≠ k := by
  rcases hs with hs | hs
  · rw [hs]
    exact hk.symm
  · rw [hs]
    exact hk'.symm

theorem AtArgumentEnd.atKind (hs : AtArgumentEnd s) {k : TokenKind} (hk : k ≠ .closeParen)
    (hk' : k ≠ .comma) : atKind k s = false :=
  beq_eq_false_iff_ne.mpr (hs.kind_ne hk hk')

theorem AtArgumentEnd.postfixSuffix (hs : AtArgumentEnd s) : postfixSuffix g s = none := by
  rcases hs with hs | hs <;> simp only [Grammar.postfixSuffix, hs]

theorem AtArgumentEnd.switchSuffix (hs : AtArgumentEnd s) : switchSuffix g s = none := by
  simp [Grammar.switchSuffix, atKeyword, hs.atKind]

theorem AtArgumentEnd.binarySuffix (hs : AtArgumentEnd s) (least : Nat) :
    binarySuffix g least s = none := by
  have hshift : atRightShift s = false := by
    have hgt := hs.kind_ne (k := .gt) nofun nofun
    cases s with
    | nil => rfl
    | cons a s =>
      cases s with
      | nil => rfl
      | cons b s =>
        have ha : (a.token.kind == .gt) = false := beq_eq_false_iff_ne.mpr hgt
        simp [atRightShift, ha]
  have hoperator : NodeKind.ofOperator? (kindAhead 0 s) = none := by
    rcases hs with hs | hs <;> rw [hs] <;> rfl
  simp [Grammar.binarySuffix, atKeyword, hs.atKind, hshift, hoperator]

theorem readsTo_unary (h : Path path) (hs : AtArgumentEnd s) :
    ReadsTo (unary g) (path ++ s) s := by
  obtain ⟨left, n, -, hchain⟩ := chain_path (g := g) h s
  obtain ⟨ts, hts⟩ := ReadsTo.chainUpTo_none n left (hs.postfixSuffix (g := g))
  exact ⟨ts, by rw [unary_path h, hchain, hts]⟩

theorem readsTo_expression (h : Path path) (hs : AtArgumentEnd s) :
    ReadsTo (expression g) (path ++ s) s := by
  have hbinary : ReadsTo (binary g 1) (path ++ s) s :=
    ((readsTo_unary h hs).chain_none hs.switchSuffix).chain_none (hs.binarySuffix 1)
  have hconditional : ReadsTo (conditional g) (path ++ s) s :=
    (hbinary.suffixed_none (by simp [hs.atKind])).suffixed_none (by simp [hs.atKind])
  have hoperator : NodeKind.ofOperator? (kindAhead 0 s) = none := by
    rcases hs with hs | hs <;> rw [hs] <;> rfl
  have harrow : (kindAhead 1 (path ++ s) == .arrow) = false :=
    h.secondIs (by decide) (hs.kind_ne (by decide) (by decide))
  have hopen : atKind .openParen (path ++ s) = false := h.atKind s rfl
  show ∃ ts, expression g (path ++ s) = .ok (ts, s)
  rw [expression, look, harrow, Bool.and_false, hopen, Bool.false_and]
  exact hconditional.suffixed_none (by rw [hoperator])

theorem readsTo_argument (hg : g.expression = expression g) (h : Path path)
    (hs : AtArgumentEnd s) (close : TokenKind) : ReadsTo (argument g close) (path ++ s) s := by
  have hname : (atKind .identifier (path ++ s) && kindAhead 1 (path ++ s) == .colon) = false := by
    rw [h.secondIs (k := .colon) nofun (hs.kind_ne nofun nofun), Bool.and_false]
  have hvalue := atByReference_path h s
  obtain ⟨ts, hts⟩ := readsTo_expression (g := g) h hs
  refine .node (.seq_cons (.whenever_false hname) (.seq_cons ⟨ts, ?_⟩ .seq_nil))
  rw [look, hvalue, hg]
  exact hts

/-! ## As a type -/

/-- Behind an operand stands `+`, or the parenthesis of a call. -/
def AtOperandEnd (s : List Lexeme) : Prop := kindAhead 0 s = .openParen ∨ kindAhead 0 s = .plus

theorem AtOperandEnd.kind_ne (hs : AtOperandEnd s) {k : TokenKind} (hk : k ≠ .openParen)
    (hk' : k ≠ .plus) : kindAhead 0 s ≠ k := by
  rcases hs with hs | hs
  · rw [hs]
    exact hk.symm
  · rw [hs]
    exact hk'.symm

theorem atDotName_operandEnd (hs : AtOperandEnd s) : atDotName s = false := by
  have hkind : kindAhead 0 s ≠ .dot := hs.kind_ne nofun nofun
  simp [atDotName, SharpLint.atKind, hkind]

/-- Behind a name that a path begins with, no type goes on. -/
def EndsType (s : List Lexeme) : Prop := kindAhead 0 s = .dot ∨ AtOperandEnd s

theorem EndsType.atKind (hs : EndsType s) {k : TokenKind} (hdot : k ≠ .dot) (hk : k ≠ .openParen)
    (hk' : k ≠ .plus) : atKind k s = false := by
  rw [SharpLint.atKind, beq_eq_false_iff_ne]
  rcases hs with hs | hs
  · rw [hs]
    exact hdot.symm
  · exact hs.kind_ne hk hk'

theorem endsType_dotted (h : Dotted path) (hs : AtOperandEnd s) : EndsType (path ++ s) := by
  rcases h.kind s with hkind | hkind
  · exact .inl hkind
  · rw [EndsType, AtOperandEnd, hkind]
    exact .inr hs

theorem readsTo_simpleTypeName {l : Lexeme} (hl : l.token.kind = .identifier) (hs : EndsType s) :
    ReadsTo (simpleTypeName g) (l :: s) s := by
  obtain ⟨ts, hts⟩ : ReadsTo (expect .identifier "type name") (l :: s) s := .expect hl nofun
  have hlt : atKind .lt s = false := hs.atKind nofun nofun nofun
  refine ⟨[.node .identifierName ts], ?_⟩
  simp only [simpleTypeName, extend, hts, look, hlt]
  rfl

theorem readsTo_nameParts (g : Inner) (h : Dotted path) (hs : AtOperandEnd s) {n : Nat}
    (hn : (path ++ s).length ≤ n) :
    ReadsTo (manyUpTo atDotName (seq [bump, simpleTypeName g]) n) (path ++ s) s := by
  induction h generalizing n with
  | none =>
    exact .manyUpTo_false (atDotName_operandEnd hs) n
  | @more dot name names hdot hname hnames ih =>
    cases n with
    | zero => exact absurd hn (Nat.not_succ_le_zero _)
    | succ n =>
      have hpart : ReadsTo (seq [bump, simpleTypeName g]) (dot :: name :: (names ++ s)) (names ++ s) :=
        .seq_cons (.bump (hdot ▸ nofun))
          (.seq_cons (readsTo_simpleTypeName hname (endsType_dotted hnames hs)) .seq_nil)
      have hlength : (names ++ s).length ≤ n := by
        simp only [List.cons_append, List.length_cons] at hn
        omega
      have htest : atDotName (dot :: name :: (names ++ s)) = true := by
        simp [atDotName, SharpLint.atKind, kindAhead, hdot, hname]
      obtain ⟨ts, hts⟩ := hpart
      obtain ⟨us, hus⟩ := ih hlength
      refine ⟨ts ++ us, ?_⟩
      show manyUpTo _ _ (n + 1) (dot :: name :: (names ++ s)) = _
      simp only [manyUpTo, whenever, look, htest, if_true, andThen, hts, hus]

theorem readsTo_namedType {l : Lexeme} (hl : l.token.kind = .identifier) (h : Dotted path)
    (hs : AtOperandEnd s) : ReadsTo (namedType g) (l :: (path ++ s)) s := by
  have hname := readsTo_simpleTypeName (g := g) hl (endsType_dotted h hs)
  cases h with
  | none => exact hname.suffixed_none (if_neg (by simp [atDotName_operandEnd hs]))
  | more hdot hpart hnames =>
    refine hname.suffixed_some (if_pos ?_)
      (readsTo_nameParts g (.more hdot hpart hnames) hs (Nat.le_refl _))
    simp [atDotName, SharpLint.atKind, kindAhead, hdot, hpart]

/-- A type that starts with a path ends behind a name of it. -/
theorem type_path (h : Path path) (hs : AtOperandEnd s) {ts : List Tree} {rest : List Lexeme}
    (hok : type g (path ++ s) = .ok (ts, rest)) : EndsType rest := by
  obtain ⟨ts₁, s₁, hnullable, harray⟩ := extend_eq_ok hok
  obtain ⟨ts₀, s₀, hhead, hnullable⟩ := extend_eq_ok hnullable
  have hends : EndsType s₀ := by
    cases h with
    | @mk head names hkind hnames =>
      rw [List.cons_append, look] at hhead
      split at hhead
      · have hend : head.token.kind ≠ .endOfFile := by
          intro hend
          rw [hend] at hkind
          cases hkind
        rw [(ReadsTo.node (.bump hend)).unique hhead]
        exact endsType_dotted hnames hs
      · split at hhead
        · rename_i hname
          rw [(readsTo_namedType (beq_iff_eq.mp hname) hnames hs).unique hhead]
          exact .inr hs
        · cases hhead
  have hquestion : atKind .question s₀ = false := hends.atKind (by decide) (by decide) (by decide)
  have hbracket : atKind .openBracket s₀ = false := hends.atKind (by decide) (by decide) (by decide)
  simp only [suffixed, look, hquestion] at hnullable
  obtain ⟨rfl, rfl⟩ := keep_eq_ok hnullable
  simp only [suffixed, look, atRank, hbracket, Bool.false_and] at harray
  obtain ⟨rfl, rfl⟩ := keep_eq_ok harray
  exact hends

theorem type_endsType (hs : EndsType s) (ts : List Tree) (rest : List Lexeme) :
    type g s ≠ .ok (ts, rest) := by
  intro hok
  obtain ⟨_, _, hok, -⟩ := extend_eq_ok hok
  obtain ⟨_, _, hok, -⟩ := extend_eq_ok hok
  have hname : atKind .identifier s = false := hs.atKind nofun nofun nofun
  have hword : atPredefinedType s = false := by
    rcases hs with hs | hs | hs <;> rw [atPredefinedType, hs] <;> rfl
  rw [look, hword, hname] at hok
  cases hok

/-! ## As a parameter -/

theorem atParameterModifier_endsType (hs : EndsType s) : atParameterModifier s = false := by
  rcases hs with hs | hs | hs <;> rw [atParameterModifier, hs] <;> rfl

/-- A parameter does not start with a path: its type is followed by its name. -/
theorem parameter_path (h : Path path) (hs : AtOperandEnd s) (ts : List Tree) (rest : List Lexeme) :
    parameter g (path ++ s) ≠ .ok (ts, rest) := by
  intro hok
  obtain ⟨_, hok, -⟩ := node_eq_ok hok
  obtain ⟨_, s₁, _, hattributes, hok, -⟩ := andThen_eq_ok hok
  obtain ⟨_, s₂, _, hmodifiers, hok, -⟩ := andThen_eq_ok hok
  obtain ⟨_, s₃, _, htype, hok, -⟩ := andThen_eq_ok hok
  obtain ⟨_, s₄, _, hname, -, -⟩ := andThen_eq_ok hok
  obtain rfl := (ReadsTo.many_false (h.atKind s (k := .openBracket) rfl)).unique hattributes
  obtain ⟨_, hmodifiers, -⟩ := node_eq_ok hmodifiers
  by_cases hthis : atParameterModifier (path ++ s) = true
  · -- `this` is read as a modifier, and no type comes behind it
    cases h with
    | @mk head names hhead hnames =>
      rw [List.cons_append] at hthis hmodifiers
      have hends := endsType_dotted hnames hs
      have hend : head.token.kind ≠ .endOfFile := by
        intro hend
        rw [hend] at hhead
        cases hhead
      obtain ⟨us, hus⟩ := ReadsTo.manyUpTo_false (p := bump) (atParameterModifier_endsType hends)
        (names ++ s).length
      have hread : ReadsTo (many atParameterModifier bump) (head :: (names ++ s)) (names ++ s) := by
        refine ⟨[.token head.token] ++ us, ?_⟩
        rw [many, look, List.length_cons, manyUpTo, whenever, look, if_pos hthis]
        simp only [andThen, bump, if_neg hend, hus]
      obtain rfl := hread.unique hmodifiers
      exact type_endsType hends _ _ htype
  · rw [Bool.not_eq_true] at hthis
    obtain rfl := (ReadsTo.many_false hthis).unique hmodifiers
    have hends := type_path h hs htype
    have hidentifier : SharpLint.atKind .identifier s₃ = false :=
      hends.atKind (by decide) (by decide) (by decide)
    rw [expect, look, hidentifier] at hname
    cases hname

end Grammar

end SharpLint
