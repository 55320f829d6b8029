import SharpLint.Proofs.Grammar.Exact

/-!
# What productions make

    MakesAt P p s        where p reads s successfully, its trees have the property P
    Makes P p            … at every place

A property of lists of trees that holds of no trees and of two lists put together (`Additive`) goes
through sequences and loops. Where a production makes a node, the property may change: from one of
the children to one of the node.
-/

namespace SharpLint.Production

/-- The trees that `p` builds at `s` have the property `P`. -/
def MakesAt (P : List Tree → Prop) (p : Production) (s : List Lexeme) : Prop :=
  ∀ ts rest, p s = .ok (ts, rest) → P ts

/-- All trees that `p` builds have the property `P`. -/
def Makes (P : List Tree → Prop) (p : Production) : Prop := ∀ s, MakesAt P p s

/-- A property of trees that no trees have and that goes over to more trees. -/
structure Additive (P : List Tree → Prop) : Prop where
  nil : P []
  append {ts us : List Tree} : P ts → P us → P (ts ++ us)

variable {P Q R : List Tree → Prop} {p q : Production} {s : List Lexeme}

theorem MakesAt.mono (h : MakesAt P p s) (hPQ : ∀ ts, P ts → Q ts) : MakesAt Q p s :=
  fun ts rest hok => hPQ ts (h ts rest hok)

/-! ## Single steps -/

theorem MakesAt.keep {ts : List Tree} (h : P ts) : MakesAt P (keep ts) s := by
  intro us rest hok
  rwa [(keep_eq_ok hok).1]

theorem Makes.fail {what : String} : Makes P (fail what) := by
  intro s ts rest hok
  cases hok

theorem MakesAt.bump (hnil : s = [] → P []) (h : ∀ l ∈ s.head?, P [.token l.token]) :
    MakesAt P bump s := by
  intro ts rest hok
  cases s with
  | nil =>
    obtain ⟨rfl, -⟩ := Prod.mk.inj (Except.ok.inj hok)
    exact hnil rfl
  | cons l s =>
    obtain ⟨rfl, -⟩ := Prod.mk.inj (Except.ok.inj hok)
    exact h l rfl

/-- Where the kind of the next lexeme is known, `bump` makes a token of that kind. -/
theorem MakesAt.bump_kind {k : TokenKind} (hs : kindAhead 0 s = k) (hk : k ≠ .endOfFile)
    (h : ∀ t : Token, t.kind = k → P [.token t]) : MakesAt P Production.bump s := by
  refine .bump (fun hnil => ?_) fun l hl => h l.token ?_
  · rw [hnil] at hs
    exact absurd hs.symm hk
  · rw [← hs, kindAhead, ← List.head?_eq_getElem?, Option.mem_def.mp hl]
    rfl

theorem Makes.expect {kind : TokenKind} {what : String} (hk : kind ≠ .endOfFile)
    (h : ∀ t : Token, t.kind = kind → P [.token t]) : Makes P (expect kind what) := by
  intro s
  show MakesAt P (if atKind kind s then Production.bump else Production.fail what) s
  split
  · rename_i hkind
    exact .bump_kind (beq_iff_eq.mp hkind) hk h
  · exact Makes.fail s

/-! ## Combining -/

theorem MakesAt.look {choose : List Lexeme → Production} (h : MakesAt P (choose s) s) :
    MakesAt P (look choose) s :=
  h

theorem MakesAt.ite {c : Bool} (hp : c = true → MakesAt P p s) (hq : c = false → MakesAt P q s) :
    MakesAt P (if c then p else q) s := by
  cases c with
  | true => exact hp rfl
  | false => exact hq rfl

theorem MakesAt.extend {next : List Tree → Production} (hp : MakesAt P p s)
    (hnext : ∀ ts rest, P ts → MakesAt Q (next ts) rest) : MakesAt Q (extend p next) s := by
  intro ts rest hok
  obtain ⟨us, mid, hfirst, hthen⟩ := extend_eq_ok hok
  exact hnext us mid (hp us mid hfirst) ts rest hthen

theorem MakesAt.node {kind : NodeKind} (hp : MakesAt P p s) (h : ∀ ts, P ts → Q [.node kind ts]) :
    MakesAt Q (node kind p) s := by
  intro ts rest hok
  obtain ⟨us, hus, rfl⟩ := node_eq_ok hok
  exact h us (hp us rest hus)

/-- The trees of a sequence are those of its parts, one behind the other. -/
theorem MakesAt.andThen (hp : MakesAt P p s) (hq : ∀ ts rest, p s = .ok (ts, rest) → MakesAt Q q rest)
    (h : ∀ ts us, P ts → Q us → R (ts ++ us)) : MakesAt R (andThen p q) s := by
  intro ts rest hok
  obtain ⟨ts₁, mid, ts₂, hfirst, hsecond, rfl⟩ := andThen_eq_ok hok
  exact h ts₁ ts₂ (hp _ _ hfirst) (hq _ _ hfirst _ _ hsecond)

theorem MakesAt.keep_seq {held : List Tree} {ps : List Production} (h : MakesAt P (seq ps) s)
    (hPQ : ∀ ts, P ts → Q (held ++ ts)) : MakesAt Q (seq (Production.keep held :: ps)) s := by
  intro ts rest hok
  obtain ⟨ts₁, mid, ts₂, hkeep, hothers, rfl⟩ := andThen_eq_ok hok
  obtain ⟨rfl, rfl⟩ := keep_eq_ok hkeep
  exact hPQ ts₂ (h _ _ hothers)

/-! ## Loops -/

namespace Additive

variable (hP : Additive P)
include hP

theorem empty : Makes P empty := fun _ => .keep hP.nil

theorem andThen (hp : MakesAt P p s) (hq : ∀ ts rest, p s = .ok (ts, rest) → MakesAt P q rest) :
    MakesAt P (Production.andThen p q) s :=
  MakesAt.andThen hp hq fun _ _ => hP.append

theorem seq {ps : List Production} (h : ps.Forall (Makes P)) : Makes P (seq ps) := by
  induction ps with
  | nil => exact hP.empty
  | cons p ps ih =>
    rw [List.forall_cons] at h
    exact fun s => hP.andThen (h.1 s) fun _ rest _ => ih h.2 rest

/-- Where the first production is treated apart from those that follow. -/
theorem seqAt {ps : List Production} (hp : MakesAt P p s) (h : ps.Forall (Makes P)) :
    MakesAt P (Production.seq (p :: ps)) s :=
  hP.andThen hp fun _ rest _ => hP.seq h rest

theorem whenever {test : List Lexeme → Bool} (h : ∀ s, test s = true → MakesAt P p s) :
    Makes P (whenever test p) := by
  intro s
  show MakesAt P (if test s then p else Production.empty) s
  exact .ite (h s) fun _ => hP.empty s

theorem manyUpTo {test : List Lexeme → Bool} (h : ∀ s, test s = true → MakesAt P p s) (n : Nat) :
    Makes P (manyUpTo test p n) := by
  induction n with
  | zero => exact hP.empty
  | succ n ih => exact hP.whenever fun s hs => hP.andThen (h s hs) fun _ rest _ => ih rest

theorem many {test : List Lexeme → Bool} (h : ∀ s, test s = true → MakesAt P p s) :
    Makes P (many test p) :=
  fun s => hP.manyUpTo h s.length s

theorem separated (hp : Makes P p) (hcomma : ∀ s, atKind .comma s = true → MakesAt P bump s) :
    Makes P (separated p) :=
  hP.seq ⟨hp, hP.many fun s hs => hP.seqAt (hcomma s hs) hp⟩

theorem itemsUpTo {test : List Lexeme → Bool} (hp : Makes P p)
    (hcomma : ∀ s, atKind .comma s = true → MakesAt P bump s) (n : Nat) :
    Makes P (itemsUpTo test p n) := by
  induction n with
  | zero => exact hP.empty
  | succ n ih =>
    have hnext : Makes P (Production.whenever (atKind .comma)
        (Production.seq [Production.bump, Production.itemsUpTo test p n])) :=
      hP.whenever fun s hs => hP.seqAt (hcomma s hs) ih
    exact hP.whenever fun s _ => hP.seqAt (hp s) hnext

theorem items {test : List Lexeme → Bool} (hp : Makes P p)
    (hcomma : ∀ s, atKind .comma s = true → MakesAt P bump s) : Makes P (items test p) :=
  fun s => hP.itemsUpTo hp hcomma s.length s

end Additive

/-! ## What follows an operand -/

theorem MakesAt.suffixed {suffix : Suffix} {held : List Tree} (hheld : P held)
    (h : ∀ kind tail, suffix s = some (kind, tail) →
      MakesAt P (Production.node kind (seq [Production.keep held, tail])) s) :
    MakesAt P (suffixed suffix held) s := by
  refine .look ?_
  split
  · exact .keep hheld
  · rename_i kind tail hsuffix
    exact h kind tail hsuffix

theorem Makes.chain {suffix : Suffix} (hp : Makes P p)
    (h : ∀ held s kind tail, P held → suffix s = some (kind, tail) →
      MakesAt P (Production.node kind (seq [Production.keep held, tail])) s) :
    Makes P (chain p suffix) := by
  have hrounds (n : Nat) : ∀ held s, P held → MakesAt P (chainUpTo suffix n held) s := by
    induction n with
    | zero => exact fun held s hheld => .keep hheld
    | succ n ih =>
      intro held s hheld
      refine .look ?_
      split
      · exact .keep hheld
      · rename_i kind tail hsuffix
        exact (h held s kind tail hheld hsuffix).extend ih
  exact fun s => (hp s).extend fun held rest hheld => .look (hrounds _ held rest hheld)

end SharpLint.Production
