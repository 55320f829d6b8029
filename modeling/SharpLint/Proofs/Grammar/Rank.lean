import SharpLint.Proofs.Grammar.Shape
import SharpLint.Proofs.Tree.Layout

/-!
# Productions that build laid trees

What a production makes is known by two numbers: the highest rank among its trees, and how many of
them have text at least.

    Gives highest count p        the trees of p are laid, of ranks up to highest, and count of them
                                 have text

In a sequence, ranks are maximised and counts are added (`Gives.cons`). A node needs numbers that its
kind allows (`Gives.node`).
-/

namespace SharpLint

open Production SharpLint.Tree

/-- Laid trees of ranks up to `highest`, at least `count` of them with text. -/
structure Ranked (highest count : Nat) (ts : List Tree) : Prop where
  laid : LaidOf ts
  ranks : ∀ l ∈ ts.map label, l.rank ≤ highest
  counts : count ≤ fullCount (ts.map label)

namespace Ranked

variable {h h' c c' : Nat} {ts us : List Tree}

theorem nil : Ranked h 0 [] := ⟨trivial, nofun, Nat.le_refl 0⟩

theorem mono (hts : Ranked h c ts) (hh : h ≤ h') (hc : c' ≤ c) : Ranked h' c' ts :=
  ⟨hts.laid, fun l hl => Nat.le_trans (hts.ranks l hl) hh, Nat.le_trans hc hts.counts⟩

theorem append (hts : Ranked h c ts) (hus : Ranked h' c' us) :
    Ranked (max h h') (c + c') (ts ++ us) := by
  refine ⟨laidOf_append.mpr ⟨hts.laid, hus.laid⟩, fun l hl => ?_, ?_⟩
  · rw [List.map_append, List.mem_append] at hl
    rcases hl with hl | hl
    · exact Nat.le_trans (hts.ranks l hl) (Nat.le_max_left h h')
    · exact Nat.le_trans (hus.ranks l hl) (Nat.le_max_right h h')
  · rw [List.map_append, fullCount, List.countP_append]
    exact Nat.add_le_add hts.counts hus.counts

theorem token {t : Token} (ht : t.kind ≠ .endOfFile) : Ranked 0 1 [.token t] := by
  refine ⟨⟨trivial, trivial⟩, ?_, ?_⟩
  · simp [label, Label.rank]
  · simp [label, fullCount, Label.isFull, ht]

end Ranked

/-- Numbers of the children that a node of the kind may have, and of the node. -/
def NodeKind.fits (k : NodeKind) (highest count : Nat) (rank full : Nat) : Bool :=
  k.allows highest count && k.rank ≤ rank && full ≤ k.isFull.toNat

theorem Ranked.node {k : NodeKind} {h c rank full : Nat} {ts : List Tree} (hts : Ranked h c ts)
    (hk : k.fits h c rank full = true) : Ranked rank full [.node k ts] := by
  simp only [NodeKind.fits, Bool.and_eq_true, decide_eq_true_eq] at hk
  obtain ⟨⟨hallows, hrank⟩, hfull⟩ := hk
  refine ⟨⟨⟨layout_of_allows hallows hts.ranks hts.counts, hts.laid⟩, trivial⟩, ?_, ?_⟩
  · simpa [label, Label.rank] using hrank
  · refine Nat.le_trans hfull ?_
    cases hk : k.isFull
    · exact Nat.zero_le _
    · simp [label, fullCount, Label.isFull, hk]

namespace Production

/-- The trees that `p` builds at `s` are laid, with the given numbers. -/
def GivesAt (highest count : Nat) (p : Production) (s : List Lexeme) : Prop :=
  MakesAt (Ranked highest count) p s

/-- All trees that `p` builds are laid, with the given numbers. -/
def Gives (highest count : Nat) (p : Production) : Prop := ∀ s, GivesAt highest count p s

variable {h h' c c' rank full : Nat} {p q : Production} {s : List Lexeme} {kind : NodeKind}

theorem GivesAt.mono (hp : GivesAt h c p s) (hh : h ≤ h') (hc : c' ≤ c) : GivesAt h' c' p s :=
  MakesAt.mono hp fun _ hts => hts.mono hh hc

theorem Gives.mono (hp : Gives h c p) (hh : h ≤ h') (hc : c' ≤ c) : Gives h' c' p :=
  fun s => (hp s).mono hh hc

theorem additive_ranked : Additive (Ranked h 0) := by
  refine ⟨.nil, fun hts hus => ?_⟩
  have hboth := hts.append hus
  rwa [Nat.max_self] at hboth

/-! ## Single steps -/

theorem GivesAt.keep {held : List Tree} (hheld : Ranked h c held) : GivesAt h c (keep held) s :=
  MakesAt.keep hheld

theorem GivesAt.bump {k : TokenKind} (hs : kindAhead 0 s = k) (hk : k ≠ .endOfFile) :
    GivesAt 0 1 bump s :=
  .bump_kind hs hk fun _ ht => .token (ht ▸ hk)

theorem Gives.bump : Gives 0 0 bump :=
  fun _ => MakesAt.bump (fun _ => .nil) fun l _ =>
    ⟨⟨trivial, trivial⟩, by simp [label, Label.rank], Nat.zero_le _⟩

theorem Gives.fail {what : String} : Gives h c (fail what) := Makes.fail

theorem Gives.empty : Gives h 0 empty := fun _ => .keep .nil

theorem Gives.expect {k : TokenKind} {what : String} (hk : k ≠ .endOfFile) :
    Gives 0 1 (expect k what) :=
  Makes.expect hk fun _ ht => .token (ht ▸ hk)

theorem GivesAt.node (hp : GivesAt h c p s) (hk : kind.fits h c rank full = true) :
    GivesAt rank full (node kind p) s :=
  MakesAt.node hp fun _ hts => hts.node hk

theorem Gives.node (hp : Gives h c p) (hk : kind.fits h c rank full = true) :
    Gives rank full (node kind p) :=
  fun s => (hp s).node hk

/-! ## Combining -/

theorem GivesAt.cons {ps : List Production} (hp : GivesAt h c p s) (hps : Gives h' c' (seq ps)) :
    GivesAt (max h h') (c + c') (seq (p :: ps)) s :=
  MakesAt.andThen hp (fun _ rest _ => hps rest) fun _ _ hts hus => hts.append hus

theorem Gives.cons {ps : List Production} (hp : Gives h c p) (hps : Gives h' c' (seq ps)) :
    Gives (max h h') (c + c') (seq (p :: ps)) :=
  fun s => (hp s).cons hps

theorem Gives.nil : Gives 0 0 (seq []) := Gives.empty

theorem GivesAt.keep_seq {held : List Tree} {ps : List Production} (hheld : Ranked h c held)
    (hps : GivesAt h' c' (Production.seq ps) s) :
    GivesAt (max h h') (c + c') (Production.seq (Production.keep held :: ps)) s :=
  MakesAt.keep_seq hps fun _ hts => hheld.append hts

/-- Behind a lexeme of a known kind, the next one is the second. -/
theorem GivesAt.bump_seq {k : TokenKind} {ps : List Production} (hs : kindAhead 0 s = k)
    (hk : k ≠ .endOfFile) (hps : GivesAt h c (Production.seq ps) (s.drop 1)) :
    GivesAt (max 0 h) (1 + c) (Production.seq (Production.bump :: ps)) s := by
  refine MakesAt.andThen (GivesAt.bump hs hk) (fun ts rest hok => ?_) fun _ _ hts hus => hts.append hus
  rw [(bump_eq (readable_of_kind hs hk) hok).1]
  exact hps

theorem GivesAt.look {choose : List Lexeme → Production} (hs : GivesAt h c (choose s) s) :
    GivesAt h c (look choose) s :=
  hs

theorem Gives.look {choose : List Lexeme → Production} (hs : ∀ s, GivesAt h c (choose s) s) :
    Gives h c (look choose) :=
  hs

theorem GivesAt.ite {b : Bool} (hp : b = true → GivesAt h c p s)
    (hq : b = false → GivesAt h c q s) : GivesAt h c (if b then p else q) s :=
  MakesAt.ite hp hq

theorem GivesAt.extend {next : List Tree → Production} (hp : GivesAt h c p s)
    (hnext : ∀ ts rest, Ranked h c ts → GivesAt h' c' (next ts) rest) :
    GivesAt h' c' (extend p next) s :=
  MakesAt.extend hp hnext

theorem Gives.whenever {test : List Lexeme → Bool} (hp : ∀ s, test s = true → GivesAt h c p s) :
    Gives h 0 (whenever test p) :=
  additive_ranked.whenever fun s hs => (hp s hs).mono (Nat.le_refl h) (Nat.zero_le c)

theorem Gives.eat {k : TokenKind} : Gives 0 0 (eat k) := .whenever fun s _ => Gives.bump s

theorem Gives.many {test : List Lexeme → Bool} (hp : ∀ s, test s = true → GivesAt h c p s) :
    Gives h 0 (many test p) :=
  additive_ranked.many fun s hs => (hp s hs).mono (Nat.le_refl h) (Nat.zero_le c)

/-- A loop gives what its first round gives, where the first round starts. -/
theorem GivesAt.many {test : List Lexeme → Bool} (hs : s ≠ []) (htest : test s = true)
    (hp : ∀ s, test s = true → GivesAt h c p s) : GivesAt h c (many test p) s := by
  obtain ⟨l, rest, rfl⟩ := List.exists_cons_of_ne_nil hs
  have hrounds : Gives h 0 (manyUpTo test p rest.length) :=
    additive_ranked.manyUpTo (fun s hs => (hp s hs).mono (Nat.le_refl h) (Nat.zero_le c)) _
  show GivesAt h c (if test (l :: rest) then andThen p (manyUpTo test p rest.length)
    else Production.empty) (l :: rest)
  rw [if_pos htest]
  have hfirst : GivesAt (max h h) (c + 0) (andThen p (manyUpTo test p rest.length)) (l :: rest) :=
    MakesAt.andThen (hp _ htest) (fun _ rest _ => hrounds rest) fun _ _ hts hus => hts.append hus
  rwa [Nat.max_self] at hfirst

theorem Gives.separated (hp : Gives h c p) : Gives h c (separated p) := by
  have hrounds : Gives h 0 (Production.many (atKind .comma)
        (Production.seq [Production.bump, p])) :=
    .many fun s _ => ((Gives.bump.cons (hp.cons .nil)).mono (by omega) (Nat.zero_le _)) s
  exact (hp.cons (hrounds.cons .nil)).mono (by omega) (by omega)

theorem Gives.items {test : List Lexeme → Bool} (hp : Gives h c p) : Gives h 0 (items test p) :=
  additive_ranked.items (hp.mono (Nat.le_refl h) (Nat.zero_le c))
    fun s _ => (Gives.bump s).mono (Nat.zero_le h) (Nat.le_refl 0)

/-! ## What follows an operand -/

theorem GivesAt.suffix_node {held : List Tree} {tail : Production} (hheld : Ranked h c held)
    (htail : GivesAt h' c' tail s) (hk : kind.fits (max h h') (c + c') rank full = true) :
    GivesAt rank full (Production.node kind (Production.seq [Production.keep held, tail])) s := by
  have htails : GivesAt (max h' 0) (c' + 0) (Production.seq [tail]) s := htail.cons .nil
  rw [Nat.max_zero, Nat.add_zero] at htails
  exact (GivesAt.keep_seq hheld htails).node hk

theorem GivesAt.suffixed {suffix : Suffix} {held : List Tree} (hheld : Ranked h c held)
    (hsuffix : ∀ kind tail, suffix s = some (kind, tail) →
      GivesAt h c (Production.node kind (Production.seq [Production.keep held, tail])) s) :
    GivesAt h c (suffixed suffix held) s :=
  MakesAt.suffixed hheld hsuffix

/-- Where what may follow is of one kind. -/
theorem GivesAt.suffix_ite {test : List Lexeme → Bool} {held : List Tree} {op : NodeKind}
    {right tail : Production} (hheld : Ranked h c held)
    (hright : test s = true → GivesAt h' c' right s)
    (hop : op.fits (max h h') (c + c') h c = true)
    (hsuffix : (if test s then some (op, right) else none) = some (kind, tail)) :
    GivesAt h c (Production.node kind (Production.seq [Production.keep held, tail])) s := by
  obtain ⟨htest, rfl, rfl⟩ := suffix_of_ite hsuffix
  exact .suffix_node hheld (hright htest) hop

theorem Gives.chain {suffix : Suffix} (hp : Gives h c p)
    (hsuffix : ∀ held s kind tail, Ranked h c held → suffix s = some (kind, tail) →
      GivesAt h c (Production.node kind (Production.seq [Production.keep held, tail])) s) :
    Gives h c (chain p suffix) :=
  Makes.chain hp hsuffix

end Production

end SharpLint
