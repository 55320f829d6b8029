import Mathlib.Data.List.Basic
import SharpLint.Grammar.Production

/-!
# Productions that keep every token

A production is exact where the trees that it yields have the tokens of the lexemes that it reads,
in order and without any other:

    p s = .ok (ts, rest)  →  s = read ++ rest  and  tokensOf ts = read.map token      (Exact p)

Only `bump` can break this, at the end of the text, where it yields a token and reads nothing. So
it is exact at a `Readable` place, and whatever is put together from exact productions is exact.
Productions that take trees read before (`keep`, `extend`, `suffixed`) yield the tokens of those
first (`ExactAt`).
-/

namespace SharpLint

open SharpLint.Tree

/-- The end of the text stands nowhere but last, and has no text of its own. -/
def EndsOnce : List Lexeme → Prop
  | [] => True
  | l :: s => (l.token.kind = .endOfFile → s = [] ∧ l.token.text = "") ∧ EndsOnce s

theorem EndsOnce.right {a b : List Lexeme} (h : EndsOnce (a ++ b)) : EndsOnce b := by
  induction a with
  | nil => exact h
  | cons l a ih => exact ih h.2

/-- The next lexeme can be read: there is one, and it is not the end of the text. -/
def Ready (s : List Lexeme) : Prop := kindAhead 0 s ≠ .endOfFile

/-- The next lexeme, if there is one, is not the end of the text. -/
def Readable (s : List Lexeme) : Prop := ∀ l ∈ s.head?, l.token.kind ≠ .endOfFile

section

variable {s : List Lexeme} {k : TokenKind}

theorem ready_of_kind (h : kindAhead 0 s = k) (hk : k ≠ .endOfFile) : Ready s := ne_of_eq_of_ne h hk

theorem ready_of_atKind (h : atKind k s = true) (hk : k ≠ .endOfFile) : Ready s :=
  ready_of_kind (beq_iff_eq.mp h) hk

theorem ready_of_atKeyword {k : Keyword} (h : atKeyword k s = true) : Ready s :=
  ready_of_atKind h nofun

theorem ready_of_atWord {word : String} (h : atWord word s = true) : Ready s :=
  ready_of_atKind (Bool.and_eq_true_iff.mp h).1 nofun

theorem ready_of_before (h : before k s = true) : Ready s := by
  intro hend
  simp [before, atEnd, atKind, hend] at h

theorem ready_of_keyword? {f : Keyword → Bool} (h : (kindAhead 0 s).keyword?.any f = true) :
    Ready s := by
  intro hend
  simp [hend, TokenKind.keyword?] at h

theorem readable_of_kindAhead {n : Nat} (h : kindAhead n s ≠ .endOfFile) : Readable (s.drop n) := by
  intro l hl
  rw [List.head?_drop] at hl
  simpa [kindAhead, Option.mem_def.mp hl] using h

theorem readable_ahead {n : Nat} (h : (kindAhead n s == k) = true) (hk : k ≠ .endOfFile) :
    Readable (s.drop n) := by
  refine readable_of_kindAhead ?_
  rwa [beq_iff_eq.mp h]

theorem Ready.readable (h : Ready s) : Readable s := readable_of_kindAhead (n := 0) h

theorem readable_of_kind (h : kindAhead 0 s = k) (hk : k ≠ .endOfFile) : Readable s :=
  (ready_of_kind h hk).readable

theorem readable_of_atKind (h : atKind k s = true) (hk : k ≠ .endOfFile) : Readable s :=
  (ready_of_atKind h hk).readable

theorem readable_of_atKeyword {k : Keyword} (h : atKeyword k s = true) : Readable s :=
  (ready_of_atKeyword h).readable

theorem readable_of_keyword? {f : Keyword → Bool} (h : (kindAhead 0 s).keyword?.any f = true) :
    Readable s :=
  (ready_of_keyword? h).readable

theorem readable_of_atWord {word : String} (h : atWord word s = true) : Readable s :=
  (ready_of_atWord h).readable

theorem readable_of_before (h : before k s = true) : Readable s := (ready_of_before h).readable

end

namespace Production

/-- From `s`, the trees of `p` have the tokens of `held` and then those of the lexemes read. -/
def ExactAt (held : List Tree) (p : Production) (s : List Lexeme) : Prop :=
  ∀ ts rest, p s = .ok (ts, rest) → EndsOnce s →
    ∃ read, s = read ++ rest ∧ tokensOf ts = tokensOf held ++ read.map Lexeme.token

/-- The trees of `p` have the tokens of exactly the lexemes read. -/
def Exact (p : Production) : Prop := ∀ s, ExactAt [] p s

variable {p q : Production} {s : List Lexeme} {held : List Tree}

/-! ## Single steps -/

theorem keep_eq_ok {ts us : List Tree} {rest : List Lexeme} (h : keep us s = .ok (ts, rest)) :
    ts = us ∧ rest = s := by
  simp only [keep, Except.ok.injEq, Prod.mk.injEq] at h
  exact ⟨h.1.symm, h.2.symm⟩

theorem ExactAt.keep : ExactAt held (keep held) s := by
  intro ts rest h _
  obtain ⟨rfl, rfl⟩ := keep_eq_ok h
  exact ⟨[], by simp⟩

theorem Exact.empty : Exact empty := fun _ => ExactAt.keep

theorem Exact.fail {what : String} : Exact (fail what) := by
  intro s ts rest h
  simp [Production.fail] at h

theorem bump_eq (hs : Readable s) {ts : List Tree} {rest : List Lexeme}
    (h : bump s = .ok (ts, rest)) :
    rest = s.drop 1 ∧ s = s.take 1 ++ rest ∧ tokensOf ts = (s.take 1).map Lexeme.token := by
  cases s with
  | nil => simp_all [bump, tokensOf]
  | cons l s =>
    have hl : l.token.kind ≠ .endOfFile := hs l rfl
    simp only [bump, if_neg hl, Except.ok.injEq, Prod.mk.injEq] at h
    obtain ⟨rfl, rfl⟩ := h
    simp [tokensOf, tokens]

theorem ExactAt.bump (hs : Readable s) : ExactAt [] bump s := by
  intro ts rest h _
  obtain ⟨-, hsplit, htokens⟩ := bump_eq hs h
  exact ⟨s.take 1, hsplit, by simpa [tokensOf] using htokens⟩

/-! ## Combining -/

section
variable {ts : List Tree} {rest : List Lexeme}

theorem andThen_eq_ok (h : andThen p q s = .ok (ts, rest)) :
    ∃ ts₁ mid ts₂, p s = .ok (ts₁, mid) ∧ q mid = .ok (ts₂, rest) ∧ ts = ts₁ ++ ts₂ := by
  unfold andThen at h
  split at h
  · cases h
  · rename_i ts₁ mid hp
    split at h
    · cases h
    · rename_i ts₂ rest₂ hq
      simp only [Except.ok.injEq, Prod.mk.injEq] at h
      obtain ⟨rfl, rfl⟩ := h
      exact ⟨ts₁, mid, ts₂, hp, hq, rfl⟩

theorem extend_eq_ok {next : List Tree → Production} (h : extend p next s = .ok (ts, rest)) :
    ∃ ts₁ mid, p s = .ok (ts₁, mid) ∧ next ts₁ mid = .ok (ts, rest) := by
  unfold extend at h
  split at h
  · cases h
  · rename_i ts₁ mid hp
    exact ⟨ts₁, mid, hp, h⟩

theorem node_eq_ok {kind : NodeKind} (h : node kind p s = .ok (ts, rest)) :
    ∃ us, p s = .ok (us, rest) ∧ ts = [.node kind us] := by
  unfold node at h
  split at h
  · cases h
  · rename_i us rest₁ hp
    simp only [Except.ok.injEq, Prod.mk.injEq] at h
    obtain ⟨rfl, rfl⟩ := h
    exact ⟨us, hp, rfl⟩

end

theorem ExactAt.look {choose : List Lexeme → Production} (h : ExactAt held (choose s) s) :
    ExactAt held (look choose) s :=
  h

theorem Exact.look {choose : List Lexeme → Production} (h : ∀ s, ExactAt [] (choose s) s) :
    Exact (look choose) :=
  h

theorem ExactAt.andThen (hp : ExactAt held p s)
    (hq : ∀ ts rest, p s = .ok (ts, rest) → ExactAt [] q rest) :
    ExactAt held (andThen p q) s := by
  intro ts rest h hs
  obtain ⟨ts₁, mid, ts₂, hp₁, hq₂, rfl⟩ := andThen_eq_ok h
  obtain ⟨read₁, rfl, htokens₁⟩ := hp _ _ hp₁ hs
  obtain ⟨read₂, rfl, htokens₂⟩ := hq _ _ hp₁ _ _ hq₂ hs.right
  refine ⟨read₁ ++ read₂, (List.append_assoc ..).symm, ?_⟩
  rw [tokensOf_append, htokens₁, htokens₂, List.map_append, List.append_assoc]
  rfl

/-- Trees held back while `p` runs come before its trees. -/
theorem ExactAt.extend_under {us : List Tree} {next : List Tree → Production} (hp : ExactAt us p s)
    (hnext : ∀ ts rest, p s = .ok (ts, rest) → ExactAt (held ++ ts) (next ts) rest) :
    ExactAt (held ++ us) (extend p next) s := by
  intro ts rest h hs
  obtain ⟨ts₁, mid, hp₁, hnext₂⟩ := extend_eq_ok h
  obtain ⟨read₁, rfl, htokens₁⟩ := hp _ _ hp₁ hs
  obtain ⟨read₂, rfl, htokens₂⟩ := hnext _ _ hp₁ _ _ hnext₂ hs.right
  refine ⟨read₁ ++ read₂, (List.append_assoc ..).symm, ?_⟩
  rw [htokens₂, tokensOf_append, htokens₁, tokensOf_append, List.map_append]
  simp only [List.append_assoc]

theorem ExactAt.extend {next : List Tree → Production} (hp : ExactAt held p s)
    (hnext : ∀ ts rest, p s = .ok (ts, rest) → ExactAt ts (next ts) rest) :
    ExactAt held (extend p next) s := by
  rw [← List.nil_append held]
  exact hp.extend_under hnext

theorem ExactAt.extend_held {next : List Tree → Production} (hp : ExactAt [] p s)
    (hnext : ∀ ts rest, p s = .ok (ts, rest) → ExactAt (held ++ ts) (next ts) rest) :
    ExactAt held (Production.extend p next) s := by
  simpa only [List.append_nil] using hp.extend_under hnext

theorem ExactAt.node {kind : NodeKind} (hp : ExactAt held p s) : ExactAt held (node kind p) s := by
  intro ts rest h hs
  obtain ⟨us, hp₁, rfl⟩ := node_eq_ok h
  simpa [tokensOf, tokens] using hp _ _ hp₁ hs

theorem Exact.andThen (hp : Exact p) (hq : Exact q) : Exact (andThen p q) :=
  fun s => (hp s).andThen fun _ rest _ => hq rest

theorem Exact.extend {next : List Tree → Production} (hp : Exact p)
    (hnext : ∀ ts s, ExactAt ts (next ts) s) : Exact (extend p next) :=
  fun s => (hp s).extend fun ts rest _ => hnext ts rest

theorem Exact.node {kind : NodeKind} (hp : Exact p) : Exact (node kind p) :=
  fun s => (hp s).node

theorem Exact.seq {ps : List Production} (h : ps.Forall Exact) : Exact (seq ps) := by
  induction ps with
  | nil => exact .empty
  | cons p ps ih =>
    rw [List.forall_cons] at h
    exact h.1.andThen (ih h.2)

/-- Where the first production is exact and so are all that follow it. -/
theorem ExactAt.seq {ps : List Production} (hp : ExactAt held p s) (h : ps.Forall Exact) :
    ExactAt held (seq (p :: ps)) s :=
  hp.andThen fun _ rest _ => Exact.seq h rest

theorem ExactAt.keep_seq (held : List Tree) {us : List Tree} {ps : List Production}
    (h : ExactAt us (Production.seq ps) s) :
    ExactAt (held ++ us) (Production.seq (Production.keep held :: ps)) s := by
  intro ts rest hok hs
  obtain ⟨ts₁, mid, ts₂, hkeep, hps, rfl⟩ := andThen_eq_ok hok
  obtain ⟨rfl, rfl⟩ := keep_eq_ok hkeep
  obtain ⟨read, hsplit, htokens⟩ := h _ _ hps hs
  exact ⟨read, hsplit, by simp [htokens]⟩

theorem ExactAt.held_seq {ps : List Production} (h : ExactAt [] (Production.seq ps) s) :
    ExactAt held (Production.seq (Production.keep held :: ps)) s := by
  simpa only [List.append_nil] using h.keep_seq held

/-- After `bump`, what follows starts one lexeme further. -/
theorem ExactAt.bump_seq {ps : List Production} (hs : Readable s)
    (h : ExactAt [] (Production.seq ps) (s.drop 1)) :
    ExactAt [] (Production.seq (Production.bump :: ps)) s := by
  refine (ExactAt.bump hs).andThen fun ts rest hok => ?_
  rw [(bump_eq hs hok).1]
  exact h

theorem ExactAt.bump_bump {ps : List Production} (hs : Readable s) (hs' : Readable (s.drop 1))
    (h : ps.Forall Exact) :
    ExactAt [] (Production.seq (Production.bump :: Production.bump :: ps)) s :=
  .bump_seq hs ((ExactAt.bump hs').seq h)

theorem Exact.whenever {test : List Lexeme → Bool} (h : ∀ s, test s = true → ExactAt [] p s) :
    Exact (whenever test p) := by
  refine .look fun s => ?_
  split
  · rename_i htest
    exact h s htest
  · exact Exact.empty s

theorem Exact.expect {kind : TokenKind} {what : String} (hk : kind ≠ .endOfFile) :
    Exact (expect kind what) := by
  refine .look fun s => ?_
  split
  · rename_i hkind
    exact .bump (readable_of_atKind hkind hk)
  · exact Exact.fail s

theorem Exact.eat {kind : TokenKind} (hk : kind ≠ .endOfFile) : Exact (eat kind) :=
  .whenever fun _ h => .bump (readable_of_atKind h hk)

/-! ## Loops -/

theorem Exact.manyUpTo {test : List Lexeme → Bool} (h : ∀ s, test s = true → ExactAt [] p s)
    (n : Nat) : Exact (manyUpTo test p n) := by
  induction n with
  | zero => exact .empty
  | succ n ih => exact .whenever fun s hs => (h s hs).andThen fun _ rest _ => ih rest

theorem Exact.many {test : List Lexeme → Bool} (h : ∀ s, test s = true → ExactAt [] p s) :
    Exact (many test p) :=
  .look fun s => Exact.manyUpTo h s.length s

/-- A loop stops where its test fails, where a round ended, or where no lexeme is left. -/
theorem many_stop {test : List Lexeme → Bool} {P : List Lexeme → Prop}
    (htest : ∀ s, test s = false → P s) (hp : ∀ s ts rest, p s = .ok (ts, rest) → P rest)
    (hnil : P []) {ts : List Tree} {rest : List Lexeme} (h : many test p s = .ok (ts, rest)) :
    P rest := by
  suffices hrounds : ∀ n s ts rest, Production.manyUpTo test p n s = .ok (ts, rest) →
      (n = 0 → P s) → P rest from
    hrounds _ _ _ _ h fun hlength => by rwa [List.length_eq_zero_iff.mp hlength]
  intro n
  induction n with
  | zero =>
    intro s ts rest h hstart
    rw [(keep_eq_ok h).2]
    exact hstart rfl
  | succ n ih =>
    intro s ts rest h _
    simp only [Production.manyUpTo, Production.whenever, Production.look] at h
    split at h
    · obtain ⟨ts₁, mid, ts₂, hfirst, hothers, -⟩ := andThen_eq_ok h
      exact ih _ _ _ hothers fun _ => hp _ _ _ hfirst
    · rename_i hfalse
      rw [(keep_eq_ok h).2]
      exact htest s (by simpa using hfalse)

theorem Exact.separated (h : Exact p) : Exact (separated p) :=
  .seq ⟨h, .many fun _ hs => (ExactAt.bump (readable_of_atKind hs nofun)).seq h⟩

theorem Exact.itemsUpTo {test : List Lexeme → Bool} (h : Exact p) (n : Nat) :
    Exact (itemsUpTo test p n) := by
  induction n with
  | zero => exact .empty
  | succ n ih =>
    have hnext : Exact (Production.whenever (atKind .comma)
        (Production.seq [Production.bump, Production.itemsUpTo test p n])) :=
      .whenever fun _ hs => (ExactAt.bump (readable_of_atKind hs nofun)).seq ih
    exact .whenever fun s _ => (h s).seq hnext

theorem Exact.items {test : List Lexeme → Bool} (h : Exact p) : Exact (items test p) :=
  .look fun s => Exact.itemsUpTo h s.length s

theorem suffix_of_ite {test : Bool} {op kind : NodeKind} {tail : Production}
    (h : (if test then some (op, p) else none) = some (kind, tail)) :
    test = true ∧ op = kind ∧ p = tail := by
  cases test with
  | false => cases h
  | true =>
    obtain ⟨rfl, rfl⟩ := Prod.mk.inj (Option.some.inj h)
    exact ⟨rfl, rfl, rfl⟩

/-- What follows an operand is exact wherever it is found. -/
def ExactSuffix (suffix : Suffix) : Prop :=
  ∀ s kind tail, suffix s = some (kind, tail) → ExactAt [] tail s

theorem ExactSuffix.ite {test : List Lexeme → Bool} {kind : NodeKind}
    (h : ∀ s, test s = true → ExactAt [] p s) :
    ExactSuffix fun s => if test s then some (kind, p) else none := by
  intro s kind' tail hsuffix
  obtain ⟨htest, rfl, rfl⟩ := suffix_of_ite hsuffix
  exact h s htest

theorem ExactSuffix.node {suffix : Suffix} (h : ExactSuffix suffix) {kind : NodeKind}
    (hp : suffix s = some (kind, p)) :
    ExactAt held (Production.node kind (seq [keep held, p])) s :=
  .node (.held_seq ((h s kind p hp).seq trivial))

theorem ExactAt.suffixed {suffix : Suffix} (h : ExactSuffix suffix) :
    ExactAt held (suffixed suffix held) s := by
  refine .look ?_
  split
  · exact .keep
  · rename_i kind tail hsuffix
    exact h.node hsuffix

theorem Exact.suffixed {suffix : Suffix} (hp : Exact p) (h : ExactSuffix suffix) :
    Exact (Production.extend p (suffixed suffix)) :=
  hp.extend fun _ _ => .suffixed h

theorem ExactAt.chainUpTo {suffix : Suffix} (h : ExactSuffix suffix) (n : Nat) :
    ∀ held s, ExactAt held (chainUpTo suffix n held) s := by
  induction n with
  | zero => exact fun _ _ => .keep
  | succ n ih =>
    intro held s
    refine .look ?_
    split
    · exact .keep
    · rename_i kind tail hsuffix
      exact (h.node hsuffix).extend fun ts rest _ => ih ts rest

theorem Exact.chain {suffix : Suffix} (hp : Exact p) (h : ExactSuffix suffix) :
    Exact (chain p suffix) :=
  hp.extend fun _ s => .look (.chainUpTo h s.length _ s)

end Production

end SharpLint
