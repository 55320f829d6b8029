import SharpLint.Proofs.Grammar.Exact

/-!
# Productions that follow a relation

A reading relates the lexemes before, the trees that were built, and the lexemes behind:

    R s ts rest          between s and rest, ts was built
    Follows R p          p s = .ok (ts, rest)  →  R s ts rest

A reading that holds of `bump`, of nothing, and of two readings one behind the other goes through
sequences and loops (`Reading.Composes`). It also goes from the children to the node, but for the
nodes of operators: what is known of those depends on how the operators bind. Where trees read
before are put in front (`keep`, `suffixed`), the reading starts where those start (`FollowsAt`).
-/

namespace SharpLint

/-- What holds between the lexemes before, the trees, and the lexemes behind. -/
abbrev Reading := List Lexeme → List Tree → List Lexeme → Prop

/-- The reading goes over to the node of the kind around the trees. -/
def Reading.Wraps (R : Reading) (kind : NodeKind) : Prop :=
  ∀ s ts rest, R s ts rest → R s [.node kind ts] rest

/-- The reading goes from single steps to what is put together from them. -/
structure Reading.Composes (R : Reading) : Prop where
  nil (s : List Lexeme) : R s [] s
  step {s rest : List Lexeme} {ts : List Tree} : Production.bump s = .ok (ts, rest) → R s ts rest
  append {s mid rest : List Lexeme} {ts us : List Tree} :
    R s ts mid → R mid us rest → R s (ts ++ us) rest
  wraps {kind : NodeKind} : kind.isBinary = false → R.Wraps kind

namespace Production

/-- At `s`, what `p` builds was built between `start` and where it stops. -/
def FollowsAt (R : Reading) (start : List Lexeme) (p : Production) (s : List Lexeme) : Prop :=
  ∀ ts rest, p s = .ok (ts, rest) → R start ts rest

/-- The reading holds of all that `p` reads. -/
def Follows (R : Reading) (p : Production) : Prop := ∀ s, FollowsAt R s p s

/-- What may follow an operand, and the node around both, follow the reading. -/
def FollowsSuffix (R : Reading) (suffix : Suffix) : Prop :=
  ∀ s kind tail, suffix s = some (kind, tail) → R.Wraps kind ∧ Follows R tail

variable {R R' : Reading} {p q : Production} {start mid s : List Lexeme} {held : List Tree}
  {kind : NodeKind}

/-! ## Single steps -/

theorem FollowsAt.keep (h : R start held s) : FollowsAt R start (keep held) s := by
  intro ts rest hok
  obtain ⟨rfl, rfl⟩ := keep_eq_ok hok
  exact h

theorem FollowsAt.fail {what : String} : FollowsAt R start (fail what) s := by
  intro ts rest hok
  cases hok

theorem Follows.fail {what : String} : Follows R (fail what) := fun _ => .fail

theorem FollowsAt.look {choose : List Lexeme → Production} (h : FollowsAt R start (choose s) s) :
    FollowsAt R start (look choose) s :=
  h

theorem Follows.look {choose : List Lexeme → Production} (h : ∀ s, FollowsAt R s (choose s) s) :
    Follows R (look choose) :=
  h

theorem FollowsAt.ite {c : Bool} (hp : c = true → FollowsAt R start p s)
    (hq : c = false → FollowsAt R start q s) : FollowsAt R start (if c then p else q) s := by
  cases c with
  | true => exact hp rfl
  | false => exact hq rfl

/-- What comes behind `p` may put the trees of `p` into another reading. -/
theorem FollowsAt.extend {next : List Tree → Production} (hp : FollowsAt R' mid p s)
    (hnext : ∀ ts rest, R' mid ts rest → FollowsAt R start (next ts) rest) :
    FollowsAt R start (extend p next) s := by
  intro ts rest hok
  obtain ⟨us, between, hfirst, hthen⟩ := extend_eq_ok hok
  exact hnext us between (hp us between hfirst) ts rest hthen

theorem FollowsAt.node (hk : R.Wraps kind) (h : FollowsAt R start p s) :
    FollowsAt R start (node kind p) s := by
  intro ts rest hok
  obtain ⟨us, hus, rfl⟩ := node_eq_ok hok
  exact hk start us rest (h us rest hus)

theorem FollowsAt.suffixed {suffix : Suffix} (hheld : R start held s)
    (h : ∀ kind tail, suffix s = some (kind, tail) →
      FollowsAt R start (Production.node kind (seq [Production.keep held, tail])) s) :
    FollowsAt R start (suffixed suffix held) s := by
  refine .look ?_
  split
  · exact .keep hheld
  · rename_i kind tail hsuffix
    exact h kind tail hsuffix

theorem FollowsAt.chainUpTo {suffix : Suffix}
    (h : ∀ held s kind tail, R start held s → suffix s = some (kind, tail) →
      FollowsAt R start (Production.node kind (seq [Production.keep held, tail])) s) (n : Nat) :
    ∀ held s, R start held s → FollowsAt R start (chainUpTo suffix n held) s := by
  induction n with
  | zero => exact fun held s hheld => .keep hheld
  | succ n ih =>
    intro held s hheld
    refine .look ?_
    split
    · exact .keep hheld
    · rename_i kind tail hsuffix
      exact (h held s kind tail hheld hsuffix).extend ih

/-- What is known of an operand is known of it with all that follows it, where each suffix keeps
it. -/
theorem Follows.chain {suffix : Suffix} (hp : Follows R p)
    (h : ∀ start held s kind tail, R start held s → suffix s = some (kind, tail) →
      FollowsAt R start (Production.node kind (seq [Production.keep held, tail])) s) :
    Follows R (chain p suffix) :=
  fun start => (hp start).extend fun held rest hheld =>
    .look (.chainUpTo (h start) rest.length held rest hheld)

theorem FollowsSuffix.ite {test : List Lexeme → Bool} (hk : R.Wraps kind) (hp : Follows R p) :
    FollowsSuffix R fun s => if test s then some (kind, p) else none := by
  intro s kind' tail hsuffix
  obtain ⟨-, rfl, rfl⟩ := suffix_of_ite hsuffix
  exact ⟨hk, hp⟩

end Production

/-! ## Combining -/

namespace Reading.Composes

open Production

variable {R : Reading} {p q : Production} {ps : List Production} {start mid s : List Lexeme}
  {held : List Tree} {kind : NodeKind} {test : List Lexeme → Bool} {suffix : Suffix}
  (hR : R.Composes)
include hR

theorem bump : Follows R bump := fun _ _ _ => hR.step

theorem empty : Follows R empty := fun s => .keep (hR.nil s)

theorem andThen (hp : FollowsAt R start p s) (hq : Follows R q) :
    FollowsAt R start (andThen p q) s := by
  intro ts rest hok
  obtain ⟨ts₁, between, ts₂, hfirst, hsecond, rfl⟩ := andThen_eq_ok hok
  exact hR.append (hp ts₁ between hfirst) (hq between ts₂ rest hsecond)

theorem seq (h : ps.Forall (Follows R)) : Follows R (seq ps) := by
  induction ps with
  | nil => exact hR.empty
  | cons p ps ih =>
    rw [List.forall_cons] at h
    exact fun s => hR.andThen (h.1 s) (ih h.2)

/-- Where the first production is treated apart from those that follow. -/
theorem seqAt (hp : FollowsAt R start p s) (h : ps.Forall (Follows R)) :
    FollowsAt R start (Production.seq (p :: ps)) s :=
  hR.andThen hp (hR.seq h)

/-- Trees read between `start` and `mid` come in front of what is read from `mid` on. -/
theorem keep_seq (hheld : R start held mid) (h : FollowsAt R mid (Production.seq ps) s) :
    FollowsAt R start (Production.seq (keep held :: ps)) s := by
  intro ts rest hok
  obtain ⟨ts₁, between, ts₂, hkeep, hothers, rfl⟩ := andThen_eq_ok hok
  obtain ⟨rfl, rfl⟩ := keep_eq_ok hkeep
  exact hR.append hheld (h ts₂ rest hothers)

theorem held_seq (hheld : R start held s) (h : ps.Forall (Follows R)) :
    FollowsAt R start (Production.seq (keep held :: ps)) s :=
  hR.keep_seq hheld (hR.seq h s)

theorem nodeAt (hk : kind.isBinary = false) (h : FollowsAt R start p s) :
    FollowsAt R start (node kind p) s :=
  h.node (hR.wraps hk)

theorem node (hk : kind.isBinary = false) (h : Follows R p) : Follows R (node kind p) :=
  fun s => hR.nodeAt hk (h s)

theorem whenever (h : Follows R p) : Follows R (whenever test p) :=
  .look fun s => .ite (fun _ => h s) fun _ => hR.empty s

theorem expect {k : TokenKind} {what : String} : Follows R (expect k what) :=
  .look fun s => .ite (fun _ => hR.bump s) fun _ => .fail

theorem eat {k : TokenKind} : Follows R (eat k) := hR.whenever hR.bump

/-! ## Loops -/

theorem manyUpTo (h : Follows R p) (n : Nat) : Follows R (manyUpTo test p n) := by
  induction n with
  | zero => exact hR.empty
  | succ n ih => exact hR.whenever fun s => hR.andThen (h s) ih

theorem many (h : Follows R p) : Follows R (many test p) :=
  .look fun s => hR.manyUpTo h s.length s

theorem separated (h : Follows R p) : Follows R (separated p) :=
  hR.seq ⟨h, hR.many (hR.seq ⟨hR.bump, h⟩)⟩

theorem itemsUpTo (h : Follows R p) (n : Nat) : Follows R (itemsUpTo test p n) := by
  induction n with
  | zero => exact hR.empty
  | succ n ih => exact hR.whenever (hR.seq ⟨h, hR.whenever (hR.seq ⟨hR.bump, ih⟩)⟩)

theorem items (h : Follows R p) : Follows R (items test p) :=
  .look fun s => hR.itemsUpTo h s.length s

/-! ## What follows an operand -/

theorem suffix_node {tail : Production} (h : FollowsSuffix R suffix) (hheld : R start held s)
    (hsuffix : suffix s = some (kind, tail)) :
    FollowsAt R start (Production.node kind (Production.seq [keep held, tail])) s := by
  obtain ⟨hk, htail⟩ := h s kind tail hsuffix
  have htails : [tail].Forall (Follows R) := htail
  exact (hR.held_seq hheld htails).node hk

theorem suffixedAt (hheld : R start held s) (h : FollowsSuffix R suffix) :
    FollowsAt R start (suffixed suffix held) s :=
  .suffixed hheld fun _ _ => hR.suffix_node h hheld

theorem suffixed (hp : Follows R p) (h : FollowsSuffix R suffix) :
    Follows R (extend p (suffixed suffix)) :=
  fun s => (hp s).extend fun _ _ hheld => hR.suffixedAt hheld h

theorem chain (hp : Follows R p) (h : FollowsSuffix R suffix) : Follows R (chain p suffix) :=
  hp.chain fun _ _ _ _ _ hheld => hR.suffix_node h hheld

end Reading.Composes

end SharpLint
