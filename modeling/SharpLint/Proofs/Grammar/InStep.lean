import SharpLint.Proofs.Grammar.Exact

/-!
# Productions in step

    ReadsFrom k s rest         from s to rest, k lexemes or more are read, and not the end of the text
    InStepAt k p q s           at s, p and q do the same, and where they succeed they read that much
    InStep n k p q             … wherever fewer than n lexemes are left

Productions that are put together from parts in step are in step. Where the first part reads a lexeme, it
is enough for the others to be in step where fewer lexemes are left (`InStepAt.seq`): so a production is in
step for one more lexeme than the productions that it refers to behind its first lexeme.
-/

namespace SharpLint

/-- From `s` to `rest`, at least `k` lexemes are read, and the end of the text is not among them. -/
def ReadsFrom (k : Nat) (s rest : List Lexeme) : Prop :=
  ∃ read, s = read ++ rest ∧ k ≤ read.length ∧ ∀ l ∈ read, l.token.kind ≠ .endOfFile

namespace ReadsFrom

variable {j k : Nat} {s t rest : List Lexeme}

theorem refl (s : List Lexeme) : ReadsFrom 0 s s := ⟨[], rfl, Nat.le_refl _, nofun⟩

theorem trans (h : ReadsFrom j s t) (h' : ReadsFrom k t rest) : ReadsFrom (j + k) s rest := by
  obtain ⟨read, rfl, hj, hread⟩ := h
  obtain ⟨read', rfl, hk, hread'⟩ := h'
  refine ⟨read ++ read', (List.append_assoc ..).symm, ?_, List.forall_mem_append.mpr ⟨hread, hread'⟩⟩
  rw [List.length_append]
  exact Nat.add_le_add hj hk

theorem mono (h : ReadsFrom k s rest) (hj : j ≤ k) : ReadsFrom j s rest := by
  obtain ⟨read, hs, hk, hread⟩ := h
  exact ⟨read, hs, Nat.le_trans hj hk, hread⟩

theorem length_add_le (h : ReadsFrom k s rest) : rest.length + k ≤ s.length := by
  obtain ⟨read, rfl, hk, -⟩ := h
  rw [List.length_append]
  omega

end ReadsFrom

theorem Ready.readsFrom_drop {s : List Lexeme} (h : Ready s) : ReadsFrom 1 s (s.drop 1) := by
  cases s with
  | nil => exact absurd rfl h
  | cons l s =>
    refine ⟨[l], rfl, Nat.le_refl _, fun m hm => ?_⟩
    rw [List.mem_singleton.mp hm]
    exact h

namespace Production

variable {p p' q q' : Production} {s : List Lexeme} {j k m n : Nat}

/-- Both productions do the same, and where they succeed they read `k` lexemes or more. -/
structure InStepAt (k : Nat) (p q : Production) (s : List Lexeme) : Prop where
  same : p s = q s
  reads : ∀ ts rest, p s = .ok (ts, rest) → ReadsFrom k s rest

/-- Both productions are in step wherever fewer than `n` lexemes are left. -/
def InStep (n k : Nat) (p q : Production) : Prop := ∀ s, s.length < n → InStepAt k p q s

/-- Both productions are in step and read a lexeme wherever one can be read and at most `n` are left. -/
def InStepReady (n : Nat) (p q : Production) : Prop :=
  ∀ s, s.length < n + 1 → Ready s → InStepAt 1 p q s

/-- Productions in step, pair by pair. -/
def AllInStep (n : Nat) : List Production → List Production → Prop
  | [], [] => True
  | p :: ps, q :: qs => InStep n 0 p q ∧ AllInStep n ps qs
  | _, _ => False

theorem InStepAt.mono (h : InStepAt k p q s) (hj : j ≤ k) : InStepAt j p q s :=
  ⟨h.same, fun ts rest hok => (h.reads ts rest hok).mono hj⟩

theorem InStep.mono (h : InStep n k p q) (hm : m ≤ n) (hj : j ≤ k) : InStep m j p q :=
  fun s hs => (h s (Nat.lt_of_lt_of_le hs hm)).mono hj

/-- What is in step where a production starts is in step behind its first lexeme. -/
theorem InStep.part (h : InStep (n + 1) 1 p q) : InStep n 0 p q := h.mono (Nat.le_succ n) (Nat.zero_le 1)

/-! ## Single steps -/

theorem InStepAt.keep (ts : List Tree) : InStepAt 0 (keep ts) (keep ts) s := by
  refine ⟨rfl, fun us rest hok => ?_⟩
  rw [(keep_eq_ok hok).2]
  exact .refl s

theorem InStep.empty : InStep n 0 empty empty := fun _ _ => .keep []

theorem InStepAt.fail {what : String} : InStepAt k (fail what) (fail what) s := ⟨rfl, nofun⟩

theorem InStepAt.bump (hs : Ready s) : InStepAt 1 bump bump s := by
  refine ⟨rfl, fun ts rest hok => ?_⟩
  rw [(bump_eq hs.readable hok).1]
  exact hs.readsFrom_drop

theorem InStepReady.bump : InStepReady n bump bump := fun _ _ => .bump

theorem InStep.bump : InStep n 0 bump bump := by
  intro s _
  by_cases hs : Ready s
  · exact (InStepAt.bump hs).mono (Nat.zero_le 1)
  · refine ⟨rfl, fun ts rest hok => ?_⟩
    have hrest : rest = s := by
      cases s with
      | nil => exact (Prod.mk.inj (Except.ok.inj hok)).2.symm
      | cons l s =>
        have hend : l.token.kind = .endOfFile := Decidable.not_not.mp hs
        rw [Production.bump, if_pos hend] at hok
        exact (Prod.mk.inj (Except.ok.inj hok)).2.symm
    rw [hrest]
    exact .refl s

/-! ## Combining -/

theorem InStepAt.look {choose choose' : List Lexeme → Production}
    (h : InStepAt k (choose s) (choose' s) s) : InStepAt k (look choose) (look choose') s :=
  ⟨h.same, h.reads⟩

theorem InStepAt.ite {c : Bool} (hp : c = true → InStepAt k p p' s)
    (hq : c = false → InStepAt k q q' s) :
    InStepAt k (if c then p else q) (if c then p' else q') s := by
  cases c with
  | true => exact hp rfl
  | false => exact hq rfl

theorem InStepAt.node {kind : NodeKind} (h : InStepAt k p q s) :
    InStepAt k (node kind p) (node kind q) s := by
  refine ⟨by rw [Production.node, Production.node, h.same], fun ts rest hok => ?_⟩
  obtain ⟨us, hus, -⟩ := node_eq_ok hok
  exact h.reads us rest hus

theorem InStep.node {kind : NodeKind} (h : InStep n k p q) :
    InStep n k (node kind p) (node kind q) :=
  fun s hs => (h s hs).node

/-- The second production runs where the first one ended. -/
theorem InStepAt.extend {next next' : List Tree → Production} (hp : InStepAt j p q s)
    (hnext : ∀ ts rest, ReadsFrom j s rest → InStepAt k (next ts) (next' ts) rest) :
    InStepAt (j + k) (extend p next) (extend q next') s := by
  constructor
  · rw [Production.extend, Production.extend, ← hp.same]
    cases hok : p s with
    | error e => rfl
    | ok read => exact (hnext read.1 read.2 (hp.reads _ _ hok)).same
  · intro ts rest hok
    obtain ⟨us, mid, hfirst, hthen⟩ := extend_eq_ok hok
    have hread := hp.reads us mid hfirst
    exact hread.trans ((hnext us mid hread).reads ts rest hthen)

theorem InStepAt.andThen (hp : InStepAt j p p' s)
    (hq : ∀ rest, ReadsFrom j s rest → InStepAt k q q' rest) :
    InStepAt (j + k) (andThen p q) (andThen p' q') s := by
  constructor
  · rw [Production.andThen, Production.andThen, ← hp.same]
    cases hok : p s with
    | error e => rfl
    | ok read =>
      dsimp only
      rw [(hq read.2 (hp.reads _ _ hok)).same]
  · intro ts rest hok
    obtain ⟨ts₁, mid, ts₂, hfirst, hthen, -⟩ := andThen_eq_ok hok
    have hread := hp.reads ts₁ mid hfirst
    exact hread.trans ((hq mid hread).reads ts₂ rest hthen)

theorem InStep.all {ps qs : List Production} (h : AllInStep n ps qs) : InStep n 0 (seq ps) (seq qs) := by
  induction ps generalizing qs with
  | nil =>
    cases qs with
    | nil => exact .empty
    | cons q qs => exact h.elim
  | cons p ps ih =>
    cases qs with
    | nil => exact h.elim
    | cons q qs =>
      exact fun s hs => (h.1 s hs).andThen fun rest hread =>
        ih h.2 rest (Nat.lt_of_le_of_lt hread.length_add_le hs)

theorem InStepAt.all {ps qs : List Production} (hs : s.length < n) (h : AllInStep n ps qs) :
    InStepAt 0 (seq ps) (seq qs) s :=
  InStep.all h s hs

/-- Behind a first production that reads a lexeme, fewer lexemes are left. -/
theorem InStepAt.seq {ps qs : List Production} (hs : s.length < n + 1) (hp : InStepAt 1 p q s)
    (h : AllInStep n ps qs) : InStepAt 1 (seq (p :: ps)) (seq (q :: qs)) s :=
  hp.andThen fun rest hread => InStep.all h rest (by have := hread.length_add_le; omega)

theorem InStep.seq {ps qs : List Production} (hp : InStep (n + 1) 1 p q) (h : AllInStep n ps qs) :
    InStep (n + 1) 1 (seq (p :: ps)) (seq (q :: qs)) :=
  fun s hs => (hp s hs).seq hs h

theorem InStepReady.seq {ps qs : List Production} (hp : InStepReady n p q) (h : AllInStep n ps qs) :
    InStepReady n (seq (p :: ps)) (seq (q :: qs)) :=
  fun s hn hs => (hp s hn hs).seq hn h

/-- Behind a first production that reads a lexeme, its trees go on with fewer lexemes left. -/
theorem InStepAt.extendPart {next next' : List Tree → Production} (hs : s.length < n + 1)
    (hp : InStepAt 1 p q s) (hnext : ∀ ts, InStep n 0 (next ts) (next' ts)) :
    InStepAt 1 (Production.extend p next) (Production.extend q next') s :=
  hp.extend fun ts rest hread => hnext ts rest (by have := hread.length_add_le; omega)

theorem InStep.extend {next next' : List Tree → Production} (hp : InStep (n + 1) 1 p q)
    (hnext : ∀ ts, InStep n 0 (next ts) (next' ts)) :
    InStep (n + 1) 1 (Production.extend p next) (Production.extend q next') :=
  fun s hs => (hp s hs).extendPart hs hnext

/-- A first production that may read nothing leaves it to the one made from its trees to read. -/
theorem InStep.extendAfter {next next' : List Tree → Production} (hp : InStep n 0 p q)
    (hnext : ∀ ts, InStep n k (next ts) (next' ts)) :
    InStep n k (Production.extend p next) (Production.extend q next') := by
  intro s hs
  have hboth := (hp s hs).extend fun ts rest hread =>
    hnext ts rest (Nat.lt_of_le_of_lt hread.length_add_le hs)
  rwa [Nat.zero_add] at hboth

theorem InStepReady.extend {next next' : List Tree → Production} (hp : InStepReady n p q)
    (hnext : ∀ ts, InStep n 0 (next ts) (next' ts)) :
    InStepReady n (Production.extend p next) (Production.extend q next') :=
  fun s hn hs => (hp s hn hs).extendPart hn hnext

/-- A production that reads a lexeme where one can be read stands where one can be read. -/
theorem InStepReady.part (h : InStepReady n p q) (hs : s.length < n) (hready : Ready s) :
    InStepAt 0 p q s :=
  (h s (Nat.lt_succ_of_lt hs) hready).mono (Nat.zero_le 1)

theorem InStepReady.node {kind : NodeKind} (h : InStepReady n p q) :
    InStepReady n (node kind p) (node kind q) :=
  fun s hn hs => (h s hn hs).node

theorem InStepReady.look {choose choose' : List Lexeme → Production}
    (h : ∀ s, s.length < n + 1 → Ready s → InStepAt 1 (choose s) (choose' s) s) :
    InStepReady n (look choose) (look choose') :=
  fun s hn hs => .look (h s hn hs)

theorem InStep.look {choose choose' : List Lexeme → Production}
    (h : ∀ s, s.length < n → InStepAt k (choose s) (choose' s) s) :
    InStep n k (look choose) (look choose') :=
  fun s hs => .look (h s hs)

theorem InStepAt.keep_seq {held : List Tree} {ps qs : List Production}
    (h : InStepAt k (Production.seq ps) (Production.seq qs) s) :
    InStepAt k (Production.seq (Production.keep held :: ps)) (Production.seq (Production.keep held :: qs))
      s := by
  constructor
  · show Production.andThen _ _ s = Production.andThen _ _ s
    simp only [Production.andThen, Production.keep, h.same]
  · intro ts rest hok
    obtain ⟨ts₁, mid, ts₂, hkeep, hps, -⟩ := andThen_eq_ok hok
    obtain ⟨-, rfl⟩ := keep_eq_ok hkeep
    exact h.reads ts₂ rest hps

theorem InStepAt.whenever {test : List Lexeme → Bool} (h : test s = true → InStepAt k p q s) :
    InStepAt 0 (whenever test p) (whenever test q) s :=
  .look (.ite (fun hs => (h hs).mono (Nat.zero_le k)) fun _ => .keep [])

theorem InStepAt.whenever_true {test : List Lexeme → Bool} (hs : test s = true)
    (h : InStepAt k p q s) : InStepAt k (Production.whenever test p) (Production.whenever test q) s :=
  .look (.ite (fun _ => h) fun hno => absurd hs (Bool.eq_false_iff.mp hno))

theorem InStep.wheneverPart {test : List Lexeme → Bool} (h : InStep n 0 p q) :
    InStep n 0 (whenever test p) (whenever test q) :=
  fun s hs => .whenever fun _ => h s hs

theorem InStep.whenever {test : List Lexeme → Bool} (htest : ∀ s, test s = true → Ready s)
    (h : InStepReady n p q) : InStep n 0 (whenever test p) (whenever test q) :=
  fun s hs => .whenever fun hok => h s (Nat.lt_succ_of_lt hs) (htest s hok)

/-- A part that may read nothing stands in front. -/
theorem InStep.after {ps qs : List Production} (hp : InStep n 0 p q)
    (h : InStep n k (Production.seq ps) (Production.seq qs)) :
    InStep n k (Production.seq (p :: ps)) (Production.seq (q :: qs)) := by
  intro s hs
  have hboth : InStepAt (0 + k) (Production.seq (p :: ps)) (Production.seq (q :: qs)) s :=
    (hp s hs).andThen fun rest hread => h rest (Nat.lt_of_le_of_lt hread.length_add_le hs)
  rwa [Nat.zero_add] at hboth

theorem InStepAt.expect {kind : TokenKind} {what : String} (hk : kind ≠ .endOfFile) :
    InStepAt 1 (expect kind what) (expect kind what) s :=
  .look (.ite (fun hs => .bump (ready_of_atKind hs hk)) fun _ => .fail)

theorem InStep.expect {kind : TokenKind} {what : String} (hk : kind ≠ .endOfFile) :
    InStep n 1 (expect kind what) (expect kind what) :=
  fun _ _ => .expect hk

/-- A lexeme of a given kind among the parts of a sequence. -/
theorem InStepAt.sign {kind : TokenKind} {what : String} (hk : kind ≠ .endOfFile) :
    InStepAt 0 (Production.expect kind what) (Production.expect kind what) s :=
  (InStepAt.expect hk).mono (Nat.zero_le 1)

theorem InStep.sign {kind : TokenKind} {what : String} (hk : kind ≠ .endOfFile) :
    InStep n 0 (Production.expect kind what) (Production.expect kind what) :=
  fun _ _ => .sign hk

theorem InStep.eat {kind : TokenKind} : InStep n 0 (eat kind) (eat kind) :=
  .wheneverPart .bump

/-! ## Loops -/

section

variable {test : List Lexeme → Bool}

theorem InStep.manyUpTo (h : ∀ s, s.length < n → test s = true → InStepAt k p q s) (fuel : Nat) :
    InStep n 0 (manyUpTo test p fuel) (manyUpTo test q fuel) := by
  induction fuel with
  | zero => exact .empty
  | succ fuel ih =>
    refine fun s hs => .whenever fun htest => (h s hs htest).andThen fun rest hread => ih rest ?_
    have := hread.length_add_le
    omega

theorem InStep.manyPart (h : InStep n 0 p q) : InStep n 0 (many test p) (many test q) :=
  fun s hs => .look (InStep.manyUpTo (fun s hs _ => h s hs) s.length s hs)

section

variable (htest : ∀ s, test s = true → Ready s) (h : InStepReady n p q)
include htest h

theorem InStep.many : InStep n 0 (Production.many test p) (Production.many test q) :=
  fun s hs => .look
    (InStep.manyUpTo (fun s hs hok => h s (Nat.lt_succ_of_lt hs) (htest s hok)) s.length s hs)

/-- A loop whose test holds makes a round, which reads a lexeme. -/
theorem InStepAt.many (hn : s.length < n + 1) (hs : test s = true) :
    InStepAt 1 (Production.many test p) (Production.many test q) s := by
  have hready := htest s hs
  have hothers (fuel : Nat) : InStep n 0 (Production.manyUpTo test p fuel)
      (Production.manyUpTo test q fuel) :=
    .manyUpTo (fun s hs hok => h s (Nat.lt_succ_of_lt hs) (htest s hok)) fuel
  refine .look ?_
  cases hlength : s.length with
  | zero =>
    rw [List.length_eq_zero_iff.mp hlength] at hready
    exact absurd rfl hready
  | succ fuel =>
    refine .whenever_true hs ((h s hn hready).andThen fun rest hread => hothers fuel rest ?_)
    have := hread.length_add_le
    omega

end

theorem InStep.moreItems (h : InStep n 0 p q) :
    InStep n 0 (Production.many (atKind .comma) (Production.seq [Production.bump, p]))
      (Production.many (atKind .comma) (Production.seq [Production.bump, q])) := by
  have hnext : InStep n 0 (Production.seq [Production.bump, p]) (Production.seq [Production.bump, q]) :=
    .all ⟨.bump, h, trivial⟩
  exact .manyPart hnext

theorem InStep.separated (h : InStep (n + 1) 1 p q) : InStep (n + 1) 1 (separated p) (separated q) :=
  .seq h ⟨.moreItems h.part, trivial⟩

/-- A list of items behind the first lexeme of a production. -/
theorem InStep.separatedPart (h : InStep n 0 p q) :
    InStep n 0 (Production.separated p) (Production.separated q) :=
  .all ⟨h, .moreItems h, trivial⟩

theorem InStep.items (h : InStep n 0 p q) : InStep n 0 (items test p) (items test q) := by
  have hrounds (fuel : Nat) : InStep n 0 (itemsUpTo test p fuel) (itemsUpTo test q fuel) := by
    induction fuel with
    | zero => exact .empty
    | succ fuel ih =>
      have hnext : InStep n 0 (Production.seq [Production.bump, itemsUpTo test p fuel])
          (Production.seq [Production.bump, itemsUpTo test q fuel]) := .all ⟨.bump, ih, trivial⟩
      have hround : InStep n 0
          (Production.seq [p, Production.whenever (atKind .comma)
            (Production.seq [Production.bump, itemsUpTo test p fuel])])
          (Production.seq [q, Production.whenever (atKind .comma)
            (Production.seq [Production.bump, itemsUpTo test q fuel])]) :=
        .all ⟨h, .wheneverPart hnext, trivial⟩
      exact .wheneverPart hround
  exact fun s hs => .look (hrounds s.length s hs)

end

/-! ## What follows an operand -/

/-- The same kind of node with a tail in step, or nothing, follows an operand. -/
def SuffixInStep (n : Nat) (suffix suffix' : Suffix) : Prop :=
  ∀ s, s.length < n → (suffix s = none ∧ suffix' s = none) ∨ ∃ kind tail tail',
    suffix s = some (kind, tail) ∧ suffix' s = some (kind, tail') ∧ InStepAt 1 tail tail' s

variable {suffix suffix' : Suffix}

theorem SuffixInStep.ite {test : List Lexeme → Bool} {kind : NodeKind}
    (htest : ∀ s, test s = true → Ready s) (h : InStepReady n p q) :
    SuffixInStep n (fun s => if test s then some (kind, p) else none)
      fun s => if test s then some (kind, q) else none := by
  intro s hs
  by_cases hok : test s = true
  · exact .inr ⟨kind, p, q, if_pos hok, if_pos hok, h s (Nat.lt_succ_of_lt hs) (htest s hok)⟩
  · exact .inl ⟨if_neg hok, if_neg hok⟩

/-- One or more rounds of a loop follow an operand. -/
theorem SuffixInStep.many {test : List Lexeme → Bool} {kind : NodeKind}
    (htest : ∀ s, test s = true → Ready s) (h : InStepReady n p q) :
    SuffixInStep n (fun s => if test s then some (kind, Production.many test p) else none)
      fun s => if test s then some (kind, Production.many test q) else none := by
  intro s hs
  by_cases hok : test s = true
  · exact .inr ⟨kind, _, _, if_pos hok, if_pos hok, .many htest h (Nat.lt_succ_of_lt hs) hok⟩
  · exact .inl ⟨if_neg hok, if_neg hok⟩

theorem InStepAt.operand {held : List Tree} {kind : NodeKind} {tail tail' : Production}
    (h : InStepAt 1 tail tail' s) :
    InStepAt 1 (Production.node kind (Production.seq [Production.keep held, tail]))
      (Production.node kind (Production.seq [Production.keep held, tail'])) s :=
  .node (.keep_seq (h.andThen fun _ _ => .keep []))

theorem SuffixInStep.suffixed (h : SuffixInStep n suffix suffix') (left : List Tree) :
    InStep n 0 (suffixed suffix left) (suffixed suffix' left) := by
  intro s hs
  refine .look ?_
  obtain ⟨hnone, hnone'⟩ | ⟨kind, tail, tail', hsome, hsome', htail⟩ := h s hs
  · rw [hnone, hnone']
    exact .keep left
  · rw [hsome, hsome']
    exact htail.operand.mono (Nat.zero_le 1)

theorem SuffixInStep.chainUpTo (h : SuffixInStep n suffix suffix') (fuel : Nat) (left : List Tree) :
    InStep n 0 (chainUpTo suffix fuel left) (chainUpTo suffix' fuel left) := by
  induction fuel generalizing left with
  | zero => exact fun _ _ => .keep left
  | succ fuel ih =>
    intro s hs
    refine .look ?_
    obtain ⟨hnone, hnone'⟩ | ⟨kind, tail, tail', hsome, hsome', htail⟩ := h s hs
    · rw [hnone, hnone']
      exact .keep left
    · rw [hsome, hsome']
      refine InStepAt.mono (htail.operand.extend fun ts rest hread => ih ts rest ?_) (Nat.zero_le 1)
      have := hread.length_add_le
      omega

/-- Behind an operand, which reads a lexeme, fewer lexemes are left. -/
theorem InStep.suffixed (hp : InStep (n + 1) 1 p q) (h : SuffixInStep n suffix suffix') :
    InStep (n + 1) 1 (Production.extend p (Production.suffixed suffix))
      (Production.extend q (Production.suffixed suffix')) :=
  .extend hp h.suffixed

theorem InStep.chain (hp : InStep (n + 1) 1 p q) (h : SuffixInStep n suffix suffix') :
    InStep (n + 1) 1 (chain p suffix) (chain q suffix') :=
  .extend hp fun ts s hs => .look (h.chainUpTo s.length ts s hs)

end Production

end SharpLint
