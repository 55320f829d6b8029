import SharpLint.Proofs.Grammar.FollowsUnit
import SharpLint.Proofs.Grammar.ShapeExpression

/-!
# Where binary operators stop

`binary` goes on as long as an operator comes next that binds at least as tightly as asked for, so
that behind it no such operator is left (`binary_stop`). Its loop is given as many rounds as there are
lexemes. That is enough, because a round reads the sign (`Continues.consumes`) and nothing puts
lexemes back (`shrinks_level`).
-/

namespace SharpLint

open Production

/-! ## Lexemes that are left -/

/-- No more lexemes are left than there were. -/
def Shrinks : Reading := fun s _ rest => rest.length ≤ s.length

/-- Fewer lexemes are left than there were. -/
def Consumes : Reading := fun s _ rest => rest.length < s.length

theorem wraps_shrinks {kind : NodeKind} : Reading.Wraps Shrinks kind := fun _ _ _ h => h

theorem composes_shrinks : Reading.Composes Shrinks where
  nil s := Nat.le_refl s.length
  step {s rest ts} h := by
    show rest.length ≤ s.length
    cases s with
    | nil =>
      obtain ⟨-, rfl⟩ := Prod.mk.inj (Except.ok.inj h)
      exact Nat.le_refl _
    | cons l s =>
      obtain ⟨-, rfl⟩ := Prod.mk.inj (Except.ok.inj h)
      split
      · exact Nat.le_refl _
      · simp
  append hts hus := Nat.le_trans hus hts
  wraps _ := wraps_shrinks

namespace Production

variable {p q : Production} {s : List Lexeme}

theorem consumes_bump (hs : kindAhead 0 s ≠ .endOfFile) : FollowsAt Consumes s bump s := by
  intro ts rest hok
  show rest.length < s.length
  rw [(bump_eq (readable_of_kindAhead (n := 0) hs) hok).1, List.length_drop]
  cases s with
  | nil => exact absurd rfl hs
  | cons l s => simp

theorem consumes_seq {ps : List Production} (hp : FollowsAt Consumes s p s)
    (hps : ps.Forall (Follows Shrinks)) : FollowsAt Consumes s (seq (p :: ps)) s := by
  intro ts rest hok
  obtain ⟨ts₁, mid, ts₂, hfirst, hothers, -⟩ := andThen_eq_ok hok
  exact Nat.lt_of_le_of_lt (composes_shrinks.seq hps mid ts₂ rest hothers) (hp ts₁ mid hfirst)

theorem seq_pair_eq_ok {ts : List Tree} {rest : List Lexeme} (h : seq [p, q] s = .ok (ts, rest)) :
    ∃ ts₁ mid ts₂, p s = .ok (ts₁, mid) ∧ q mid = .ok (ts₂, rest) ∧ ts = ts₁ ++ ts₂ := by
  obtain ⟨ts₁, mid, us, hp, hothers, rfl⟩ := andThen_eq_ok h
  obtain ⟨ts₂, rest', none, hq, hempty, rfl⟩ := andThen_eq_ok hothers
  obtain ⟨rfl, rfl⟩ := keep_eq_ok hempty
  exact ⟨ts₁, mid, ts₂, hp, hq, by rw [List.append_nil]⟩

theorem suffix_node_eq_ok {kind : NodeKind} {tail : Production} {held ts : List Tree}
    {rest : List Lexeme} (h : node kind (seq [keep held, tail]) s = .ok (ts, rest)) :
    ∃ us, tail s = .ok (us, rest) ∧ ts = [.node kind (held ++ us)] := by
  obtain ⟨cs, hcs, rfl⟩ := node_eq_ok h
  obtain ⟨ts₁, mid, us, hkeep, htail, rfl⟩ := seq_pair_eq_ok hcs
  obtain ⟨rfl, rfl⟩ := keep_eq_ok hkeep
  exact ⟨us, htail, rfl⟩

/-- A chain stops where nothing follows any more, if each round reads a lexeme. -/
theorem chain_stop {suffix : Suffix} (hnil : suffix [] = none)
    (htail : ∀ s kind tail, suffix s = some (kind, tail) → FollowsAt Consumes s tail s)
    {ts : List Tree} {rest : List Lexeme} (h : chain p suffix s = .ok (ts, rest)) :
    suffix rest = none := by
  suffices hrounds : ∀ n held s ts rest, chainUpTo suffix n held s = .ok (ts, rest) →
      s.length ≤ n → suffix rest = none by
    obtain ⟨held, mid, -, hchain⟩ := extend_eq_ok h
    exact hrounds mid.length held mid ts rest hchain (Nat.le_refl _)
  intro n
  induction n with
  | zero =>
    intro held s ts rest h hlength
    obtain ⟨-, rfl⟩ := keep_eq_ok h
    rwa [List.length_eq_zero_iff.mp (Nat.le_zero.mp hlength)]
  | succ n ih =>
    intro held s ts rest h hlength
    simp only [chainUpTo, look] at h
    cases hsuffix : suffix s with
    | none =>
      rw [hsuffix] at h
      obtain ⟨-, rfl⟩ := keep_eq_ok h
      exact hsuffix
    | some follower =>
      obtain ⟨kind, tail⟩ := follower
      rw [hsuffix] at h
      obtain ⟨us, mid, hround, hothers⟩ := extend_eq_ok h
      obtain ⟨ts', hmid, -⟩ := suffix_node_eq_ok hround
      -- the lexemes left are still no more than the rounds left
      have hless : mid.length < s.length := htail s kind tail hsuffix ts' mid hmid
      exact ih us mid ts rest hothers (by omega)

end Production

namespace Grammar

variable {g : Inner} {least p : Nat} {s : List Lexeme} {kind : NodeKind} {tail : Production}

/-! ## Where a level stops -/

/-- Which operator comes next is seen without the productions that read its operands. -/
theorem Continues.exists_tail (h : Continues g s p kind tail) (g' : Inner) :
    ∃ tail', Continues g' s p kind tail' := by
  cases h with
  | typeTest has => exact ⟨_, .typeTest has⟩
  | patternTest has his => exact ⟨_, .patternTest has his⟩
  | rightShift htest hshift => exact ⟨_, .rightShift htest hshift⟩
  | operator htest hshift hop hp => exact ⟨_, .operator htest hshift hop hp⟩

theorem Continues.follows {R : Reading} (h : Continues g s p kind tail) (hR : R.Composes)
    (hg : g.Follows R) : Follows R tail := by
  have hbehind {right : Production} (hright : Follows R right) : Follows R (seq [bump, right]) :=
    hR.seq ⟨hR.bump, hright⟩
  cases h with
  | typeTest _ => exact hbehind (follows_type hR hg)
  | patternTest _ _ => exact hbehind hg.pattern
  | rightShift _ _ => exact hR.seq ⟨hR.seq ⟨hR.bump, hR.bump⟩, hg.binary _⟩
  | operator _ _ _ _ => exact hbehind (hg.binary _)

theorem Continues.ne_end (h : Continues g s p kind tail) : kindAhead 0 s ≠ .endOfFile := by
  intro hend
  cases h with
  | typeTest has => simp [atKeyword, atKind, hend] at has
  | patternTest _ his => simp [atKeyword, atKind, hend] at his
  | rightShift _ hshift =>
    rw [(kindAhead_of_atRightShift hshift).1] at hend
    cases hend
  | operator _ _ hop _ => exact kindAhead_of_operator hop hend

/-- At least the sign is read. -/
theorem Continues.consumes (h : Continues g s p kind tail) (hg : g.Follows Shrinks) :
    FollowsAt Consumes s tail s := by
  have hbump := consumes_bump h.ne_end
  cases h with
  | typeTest _ => exact consumes_seq hbump (follows_type composes_shrinks hg)
  | patternTest _ _ => exact consumes_seq hbump hg.pattern
  | rightShift _ _ => exact consumes_seq (consumes_seq hbump composes_shrinks.bump) (hg.binary _)
  | operator _ _ _ _ => exact consumes_seq hbump (hg.binary _)

theorem operators_shrinks (hg : g.Follows Shrinks) : g.Operators Shrinks := by
  have hR := composes_shrinks
  have hbinary (least : Nat) : (binary g least).Follows Shrinks := by
    refine hR.chain (follows_operand hR hg) fun s kind tail hsuffix => ⟨wraps_shrinks, ?_⟩
    obtain ⟨p, hnext, -⟩ := binarySuffix_eq_some.mp hsuffix
    exact hnext.follows hR hg
  have hcoalesce : (coalesce g).Follows Shrinks :=
    hR.suffixed (hbinary 1) (.ite wraps_shrinks (hR.seq ⟨hR.bump, hg.coalesce⟩))
  have hvalue : [seq [bump, g.expression]].Forall (Follows Shrinks) :=
    hR.seq ⟨hR.bump, hg.expression⟩
  refine ⟨hbinary, hcoalesce,
    follows_expression hR hg (follows_conditional hR hg hcoalesce) (fun _ _ _ h => h) ?_⟩
  intro start held s kind hheld _
  exact (hR.held_seq hheld hvalue).node wraps_shrinks

theorem shrinks_level (n : Nat) : (Inner.level n).Follows Shrinks :=
  follows_level composes_shrinks (fun _ => operators_shrinks) n

/-- Behind the operators of a level, the next one binds less tightly. -/
theorem binary_stop {n : Nat} {ts : List Tree} {rest : List Lexeme}
    (h : binary (Inner.level n) least s = .ok (ts, rest)) (hnext : Continues g rest p kind tail) :
    p < least := by
  have hstop : binarySuffix (Inner.level n) least rest = none := by
    refine chain_stop rfl (fun s kind tail hsuffix => ?_) h
    obtain ⟨p, hnext, -⟩ := binarySuffix_eq_some.mp hsuffix
    exact hnext.consumes (shrinks_level n)
  obtain ⟨tail', hnext⟩ := hnext.exists_tail (Inner.level n)
  by_contra hleast
  have hsuffix := binarySuffix_eq_some.mpr ⟨p, hnext, Nat.not_lt.mp hleast⟩
  rw [hstop] at hsuffix
  cases hsuffix

end Grammar

end SharpLint
