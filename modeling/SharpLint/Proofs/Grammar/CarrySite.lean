import SharpLint.Proofs.Grammar.Carry
import SharpLint.Proofs.Grammar.Path
import SharpLint.Grammar.Declaration

/-!
# Operands that are put into a call

The sites of one kind of edit: behind the opener, a path becomes the argument of a call, or the first
argument of one:

    path            name ( path' )
    path ( )        name ( path' )
    path ( a        name ( path' , a

`OperandAhead` says what the grammar can tell of such a place before it reads it, and it says the same of
the old text and the new one. What reads tokens without looking at them goes over the site
(`Swap.split`).
-/

namespace SharpLint

open Production Grammar

/-- Openers that a whole expression follows. There the grammar can look for a type as well, so that it
has to be clear from the operand alone that it is none. -/
def TokenKind.opensWhole : TokenKind → Bool
  | .openParen | .arrow | .keyword .kwReturn => true
  | k => (NodeKind.ofOperator? k).any NodeKind.isAssignment

theorem TokenKind.opensWhole_of_assignment {k : TokenKind} {kind : NodeKind}
    (h : NodeKind.ofOperator? k = some kind) (hkind : kind.isAssignment = true) :
    k.opensWhole = true := by
  have hany : (NodeKind.ofOperator? k).any NodeKind.isAssignment = true := by rw [h]; exact hkind
  unfold opensWhole
  split <;> first | rfl | exact hany

/-- The old lexemes and the new ones. Behind a whole expression that is an operand stands `+`; and where a
bracket stands in front of the opener, the operand and what follows it could not be an accessor. -/
inductive Swap (whole bracket : Prop) : List Lexeme → List Lexeme → Prop
  | operand {path name path' b b' : List Lexeme} {l r : Lexeme} : Path path → Path name →
      Path path' → l.token.kind = .openParen → r.token.kind = .closeParen →
      (whole → kindAhead 0 b = .plus) → (bracket → atBody b = false) → Same b b' →
      Swap whole bracket (path ++ b) (name ++ l :: (path' ++ r :: b'))
  | call {path name path' b b' : List Lexeme} {l l' : Lexeme} : Path path → Path name →
      Path path' → l.token.kind = .openParen → l'.token.kind = .openParen →
      kindAhead 0 b = .closeParen → Same b b' →
      Swap whole bracket (path ++ l :: b) (name ++ l' :: (path' ++ b'))
  | callMore {path name path' b b' : List Lexeme} {l l' c : Lexeme} : Path path → Path name →
      Path path' → l.token.kind = .openParen → l'.token.kind = .openParen →
      kindAhead 0 b ≠ .closeParen → c.token.kind = .comma → Same b b' →
      Swap whole bracket (path ++ l :: b) (name ++ l' :: (path' ++ c :: b'))

/-- An opener, and behind it an operand that is put into a call. -/
structure Site.Fits (σ : Site) : Prop extends σ.Opens where
  swap : Swap (σ.opener.token.kind.opensWhole = true) (σ.bracket = true) σ.old σ.new

/-! ## Ahead of the site -/

/-- A path comes next; behind it stands `+` or a parenthesis where a whole expression may follow. -/
def OperandAhead (whole : Prop) (s : List Lexeme) : Prop :=
  ∃ path rest, s = path ++ rest ∧ Path path ∧ (whole → AtOperandEnd rest)

namespace OperandAhead

variable {whole : Prop} {s : List Lexeme} (h : OperandAhead whole s)
include h

theorem atKind {k : TokenKind} (hk : k.startsPath = false) : atKind k s = false := by
  obtain ⟨path, rest, rfl, hpath, -⟩ := h
  exact hpath.atKind rest hk

theorem ne_nil : s ≠ [] := by
  obtain ⟨path, rest, rfl, hpath, -⟩ := h
  exact List.append_ne_nil_of_left_ne_nil hpath.ne_nil rest

theorem atByReference : atByReference s = false := by
  obtain ⟨path, rest, rfl, hpath, -⟩ := h
  exact atByReference_path hpath rest

variable (hwhole : whole)
include hwhole

theorem secondIs (k : TokenKind) (hdot : k ≠ .dot) (hk : k ≠ .openParen) (hk' : k ≠ .plus) :
    (kindAhead 1 s == k) = false := by
  obtain ⟨path, rest, rfl, hpath, hrest⟩ := h
  exact hpath.secondIs hdot ((hrest hwhole).kind_ne hk hk')

theorem type {g : Inner} {ts : List Tree} {rest : List Lexeme}
    (hok : Grammar.type g s = .ok (ts, rest)) : EndsType rest := by
  obtain ⟨path, rest', rfl, hpath, hrest⟩ := h
  exact type_path hpath (hrest hwhole) hok

/-- Behind a type that is read here, only a few tokens can come. -/
theorem type_seq_fails {g : Inner} {k : TokenKind} {what : String} {ps : List Production}
    (hdot : k ≠ .dot) (hk : k ≠ .openParen) (hk' : k ≠ .plus) (ts : List Tree) (rest : List Lexeme) :
    seq (Grammar.type g :: expect k what :: ps) s ≠ .ok (ts, rest) := by
  intro hok
  obtain ⟨_, mid, _, htype, hok, -⟩ := andThen_eq_ok hok
  obtain ⟨_, _, _, hexpect, -, -⟩ := andThen_eq_ok hok
  rw [expect, look, (h.type hwhole htype).atKind hdot hk hk'] at hexpect
  cases hexpect

theorem parameter_fails {g : Inner} (ts : List Tree) (rest : List Lexeme) :
    parameter g s ≠ .ok (ts, rest) := by
  obtain ⟨path, rest', rfl, hpath, hrest⟩ := h
  exact parameter_path hpath (hrest hwhole) ts rest

/-- A test of what comes after a type. -/
theorem testAfterType {g : Inner} {test : List Lexeme → Bool}
    (htest : ∀ rest, EndsType rest → test rest = false) :
    (match afterType? g s with
      | none => false
      | some rest => test rest) = false := by
  unfold afterType?
  cases hok : Grammar.type g s with
  | error e => rfl
  | ok read => exact htest read.2 (h.type hwhole hok)

end OperandAhead

namespace Swap

variable {whole bracket : Prop} {old new : List Lexeme} (h : Swap whole bracket old new)
include h

theorem old_ahead : OperandAhead whole old := by
  cases h with
  | @operand path _ _ b _ _ _ hpath _ _ _ _ hplus _ _ =>
    exact ⟨path, b, rfl, hpath, fun hwhole => .inr (hplus hwhole)⟩
  | call hpath _ _ hl _ _ _ => exact ⟨_, _, rfl, hpath, fun _ => .inl hl⟩
  | callMore hpath _ _ hl _ _ _ _ => exact ⟨_, _, rfl, hpath, fun _ => .inl hl⟩

theorem old_accessor (hbracket : bracket) :
    ∃ path rest, old = path ++ rest ∧ Path path ∧ atBody rest = false := by
  have hcall {l : Lexeme} {b : List Lexeme} (hl : l.token.kind = .openParen) :
      atBody (l :: b) = false := by
    have hkind : kindAhead 0 (l :: b) = .openParen := hl
    simp [atBody, atEnd, SharpLint.atKind, hkind]
  cases h with
  | operand hpath _ _ _ _ _ hbody _ => exact ⟨_, _, rfl, hpath, hbody hbracket⟩
  | call hpath _ _ hl _ _ _ => exact ⟨_, _, rfl, hpath, hcall hl⟩
  | callMore hpath _ _ hl _ _ _ _ => exact ⟨_, _, rfl, hpath, hcall hl⟩

theorem new_ahead : OperandAhead whole new := by
  cases h with
  | operand _ hname _ hl _ _ _ _ => exact ⟨_, _, rfl, hname, fun _ => .inl hl⟩
  | call _ hname _ _ hl _ _ => exact ⟨_, _, rfl, hname, fun _ => .inl hl⟩
  | callMore _ hname _ _ hl _ _ _ => exact ⟨_, _, rfl, hname, fun _ => .inl hl⟩

end Swap

/-! ## Over the site -/

/-- Kinds that the exchanged lexemes have. -/
def TokenKind.swaps (k : TokenKind) : Bool :=
  k.startsPath || k == .dot || k == .openParen || k == .closeParen || k == .comma

theorem Dotted.swaps {path : List Lexeme} (h : Dotted path) :
    ∀ l ∈ path, l.token.kind.swaps = true := by
  induction h with
  | none => nofun
  | more hdot hname _ ih =>
    refine List.forall_mem_cons.mpr ⟨?_, List.forall_mem_cons.mpr ⟨?_, ih⟩⟩
    · rw [hdot]
      rfl
    · rw [hname]
      rfl

theorem Path.swaps {path : List Lexeme} (h : Path path) : ∀ l ∈ path, l.token.kind.swaps = true := by
  cases h with
  | mk hhead hnames =>
    refine List.forall_mem_cons.mpr ⟨?_, hnames.swaps⟩
    simp [TokenKind.swaps, hhead]

/-- The exchanged lexemes are names, dots, parentheses and commas; what stands behind them is the
same. -/
theorem Swap.split {whole bracket : Prop} {old new : List Lexeme} (h : Swap whole bracket old new) :
    ∃ x y b b', old = x ++ b ∧ new = y ++ b' ∧ Same b b' ∧
      (∀ l ∈ x, l.token.kind.swaps = true) ∧ ∀ l ∈ y, l.token.kind.swaps = true := by
  have hone {l : Lexeme} {k : TokenKind} (hl : l.token.kind = k) (hk : k.swaps = true) :
      ∀ m ∈ [l], m.token.kind.swaps = true := by
    rintro m hm
    rw [List.mem_singleton.mp hm, hl, hk]
  have happend {x y : List Lexeme} (hx : ∀ l ∈ x, l.token.kind.swaps = true)
      (hy : ∀ l ∈ y, l.token.kind.swaps = true) : ∀ l ∈ x ++ y, l.token.kind.swaps = true :=
    List.forall_mem_append.mpr ⟨hx, hy⟩
  cases h with
  | @operand path name path' b b' l r hpath hname hpath' hl hr _ _ hb =>
    exact ⟨path, name ++ [l] ++ path' ++ [r], b, b', rfl, by simp, hb, hpath.swaps,
      happend (happend (happend hname.swaps (hone hl rfl)) hpath'.swaps) (hone hr rfl)⟩
  | @call path name path' b b' l l' hpath hname hpath' hl hl' _ hb =>
    exact ⟨path ++ [l], name ++ [l'] ++ path', b, b', by simp, by simp, hb,
      happend hpath.swaps (hone hl rfl), happend (happend hname.swaps (hone hl' rfl)) hpath'.swaps⟩
  | @callMore path name path' b b' l l' c hpath hname hpath' hl hl' _ hc hb =>
    exact ⟨path ++ [l], name ++ [l'] ++ path' ++ [c], b, b', by simp, by simp, hb,
      happend hpath.swaps (hone hl rfl),
      happend (happend (happend hname.swaps (hone hl' rfl)) hpath'.swaps) (hone hc rfl)⟩

/-! ## More arguments in the new text -/

namespace Production

variable {σ : Site} {p q : Production} {ps qs : List Production} {s s' t t' : List Lexeme}

theorem carries_of_readsTo
    (h : ∀ rest, ReadsTo p s rest → ∃ rest', ReadsTo q t rest' ∧ σ.Aligned rest rest') :
    Carries σ False p q s t := by
  intro ts rest hok
  obtain ⟨rest', ⟨us, hus⟩, hrest⟩ := h rest ⟨ts, hok⟩
  exact ⟨us, rest', hus, False.elim, hrest⟩

theorem Carries.readsTo {rest : List Lexeme} (h : Carries σ False p q s t) (hp : ReadsTo p s rest) :
    ∃ rest', ReadsTo q t rest' ∧ σ.Aligned rest rest' := by
  obtain ⟨ts, hts⟩ := hp
  obtain ⟨us, rest', hus, -, hrest⟩ := h ts rest hts
  exact ⟨rest', ⟨us, hus⟩, hrest⟩

/-- Where the first productions read to places that the others carry over from. -/
theorem Carries.seq_readsTo (hp : ReadsTo p s s') (hq : ReadsTo q t t')
    (h : Carries σ False (Production.seq ps) (Production.seq qs) s' t') :
    Carries σ False (Production.seq (p :: ps)) (Production.seq (q :: qs)) s t := by
  intro ts rest hok
  obtain ⟨ts₁, mid, ts₂, hfirst, hothers, -⟩ := andThen_eq_ok hok
  obtain rfl := hp.unique hfirst
  obtain ⟨us, rest', hus, -, hrest⟩ := h ts₂ rest hothers
  obtain ⟨vs, hvs⟩ := ReadsTo.seq_cons hq ⟨us, hus⟩
  exact ⟨vs, rest', hvs, False.elim, hrest⟩

/-- The new text has one item more, and a comma behind it. -/
theorem Carries.separated_more (hσ : σ.Opens) {g g' : Inner} (hg : g.Reads) (hg' : g'.Reads)
    (hp : Separates g p) (hq : Separates g' q) (h : Carried σ False p q) {c : Lexeme}
    (hc : atKind .comma (c :: t') = true) (hfirst : ReadsTo q t (c :: t')) (hst : σ.Aligned s t') :
    Carries σ False (Production.separated p) (Production.separated q) s t := by
  intro ts rest hok
  obtain ⟨ts₁, s₁, ts₂, hitem, hothers, -⟩ := seq_pair_eq_ok hok
  obtain ⟨us₁, t₁, hus₁, -, hst₁⟩ := h s t' hst ts₁ s₁ hitem
  have hlength := ((hq.inStep hg' _ t' (Nat.lt_succ_self _)).reads us₁ t₁ hus₁).length_add_le
  have hmore : Carries σ False
      (Production.manyUpTo (atKind .comma) (Production.seq [Production.bump, p]) s₁.length)
      (Production.manyUpTo (atKind .comma) (Production.seq [Production.bump, q]) t'.length) s₁ t₁ :=
    .manyUpTo hσ (fun _ _ hst => hst.atKind hσ rfl) (fun _ => (Repeats.moreItems hp).reads hg)
      (fun _ => (Repeats.moreItems hq).reads hg')
      (fun _ _ hst hs => .comma_seq hσ h hst hs trivial) hst₁
      (Nat.le_refl _) (by omega)
  obtain ⟨us₂, rest', hus₂, -, hrest⟩ := hmore ts₂ rest hothers
  have hend : c.token.kind ≠ .endOfFile := by
    rw [show c.token.kind = .comma from beq_iff_eq.mp hc]
    nofun
  have hround : ReadsTo (Production.seq [Production.bump, q]) (c :: t') t₁ :=
    .seq_cons (.bump hend) (.seq_cons ⟨us₁, hus₁⟩ .seq_nil)
  have hmany : ReadsTo (many (atKind .comma) (Production.seq [Production.bump, q])) (c :: t') rest' := by
    obtain ⟨vs, hvs⟩ := hround
    refine ⟨vs ++ us₂, ?_⟩
    rw [many, Production.look, List.length_cons, Production.manyUpTo, Production.whenever,
      Production.look, if_pos hc]
    simp only [Production.andThen, hvs, hus₂]
  obtain ⟨vs, hvs⟩ : ReadsTo (Production.separated q) t rest' :=
    .seq_cons hfirst (.seq_cons hmany .seq_nil)
  exact ⟨vs, rest', hvs, False.elim, hrest⟩

end Production

end SharpLint
