import SharpLint.Proofs.Grammar.Site

/-!
# Productions that carry over

What can be read at a place of the old text can be read at the place of the new text that is aligned
with it, and the two runs end at places that are aligned:

    Carries σ strict p q s t       p at s carries over to q at t; strictly, with the same trees
    Carried σ strict p q           … at all places that are aligned

This goes through sequences, choices and loops. A loop allows as many rounds as lexemes are left, which
are not as many in both texts; so the rounds are counted against the lexemes that each round reads
(`Carries.manyUpTo`). Nothing is asked of a run that fails. Types carry over first, since no site reaches
into one.
-/

namespace SharpLint.Production

open Grammar

/-- Where `p` can be read at `s`, `q` can be read at `t`, and both end at places that are aligned. -/
def Carries (σ : Site) (strict : Prop) (p q : Production) (s t : List Lexeme) : Prop :=
  ∀ ts rest, p s = .ok (ts, rest) →
    ∃ us rest', q t = .ok (us, rest') ∧ (strict → us = ts) ∧ σ.Aligned rest rest'

/-- `p` carries over to `q` wherever the places are aligned. -/
def Carried (σ : Site) (strict : Prop) (p q : Production) : Prop :=
  ∀ s t, σ.Aligned s t → Carries σ strict p q s t

/-- Productions that carry over, pair by pair. -/
def AllCarried (σ : Site) (strict : Prop) : List Production → List Production → Prop
  | [], [] => True
  | p :: ps, q :: qs => Carried σ strict p q ∧ AllCarried σ strict ps qs
  | _, _ => False

/-- At places that are aligned nothing follows an operand, or the same kind of tail does and carries
over. -/
def CarriedSuffix (σ : Site) (strict : Prop) (suffix suffix' : Suffix) : Prop :=
  ∀ s t, σ.Aligned s t → suffix s = none ∧ suffix' t = none ∨
    ∃ kind tail tail', suffix s = some (kind, tail) ∧ suffix' t = some (kind, tail') ∧
      Carries σ strict tail tail' s t

variable {σ : Site} {strict : Prop} {p p' q q' : Production} {ps qs : List Production}
  {s t : List Lexeme} {held held' : List Tree} {kind : NodeKind} {test : List Lexeme → Bool}

/-! ## Single steps -/

theorem Carries.keep (hheld : strict → held' = held) (h : σ.Aligned s t) :
    Carries σ strict (keep held) (keep held') s t := by
  intro ts rest hok
  obtain ⟨rfl, rfl⟩ := keep_eq_ok hok
  exact ⟨held', t, rfl, hheld, h⟩

theorem Carried.empty : Carried σ strict empty empty := fun _ _ => .keep fun _ => rfl

/-- Where a production fails, any production carries over from it. -/
theorem Carries.of_fails (h : ∀ ts rest, p s ≠ .ok (ts, rest)) : Carries σ strict p q s t :=
  fun ts rest hok => absurd hok (h ts rest)

/-- The productions may be started elsewhere, where they do the same. -/
theorem Carries.of_eq {s' t' : List Lexeme} (hp : p s = p' s') (hq : q t = q' t')
    (h : Carries σ strict p' q' s' t') : Carries σ strict p q s t := by
  intro ts rest hok
  rw [hp] at hok
  obtain ⟨us, rest', hus, hmore⟩ := h ts rest hok
  exact ⟨us, rest', hq.trans hus, hmore⟩

theorem Carries.mono {strict' : Prop} (h : Carries σ strict p q s t) (hstrict : strict' → strict) :
    Carries σ strict' p q s t := by
  intro ts rest hok
  obtain ⟨us, rest', hus, htrees, hrest⟩ := h ts rest hok
  exact ⟨us, rest', hus, fun h => htrees (hstrict h), hrest⟩

theorem Carries.fail {what : String} : Carries σ strict (fail what) q s t := .of_fails nofun

/-! ## Combining -/

theorem Carries.look {choose choose' : List Lexeme → Production}
    (h : Carries σ strict (choose s) (choose' t) s t) :
    Carries σ strict (look choose) (look choose') s t :=
  h

theorem Carries.ite {c : Bool} (hp : c = true → Carries σ strict p p' s t)
    (hq : c = false → Carries σ strict q q' s t) :
    Carries σ strict (if c then p else q) (if c then p' else q') s t := by
  cases c with
  | true => exact hp rfl
  | false => exact hq rfl

theorem Carries.extend {next next' : List Tree → Production} (hp : Carries σ strict p p' s t)
    (hnext : ∀ ts us s' t', (strict → us = ts) → σ.Aligned s' t' →
      Carries σ strict (next ts) (next' us) s' t') :
    Carries σ strict (extend p next) (extend p' next') s t := by
  intro ts rest hok
  obtain ⟨ts₁, mid, hfirst, hthen⟩ := extend_eq_ok hok
  obtain ⟨us₁, mid', hfirst', htrees, hmid⟩ := hp ts₁ mid hfirst
  obtain ⟨us, rest', hthen', htrees', hrest⟩ := hnext ts₁ us₁ mid mid' htrees hmid ts rest hthen
  refine ⟨us, rest', ?_, htrees', hrest⟩
  rw [Production.extend, hfirst']
  exact hthen'

/-- The second production runs where the first one ended. -/
theorem Carries.andThen (hp : Carries σ strict p p' s t)
    (hq : ∀ ts us s' t', p s = .ok (ts, s') → p' t = .ok (us, t') → σ.Aligned s' t' →
      Carries σ strict q q' s' t') :
    Carries σ strict (andThen p q) (andThen p' q') s t := by
  intro ts rest hok
  obtain ⟨ts₁, mid, ts₂, hfirst, hsecond, rfl⟩ := andThen_eq_ok hok
  obtain ⟨us₁, mid', hfirst', htrees, hmid⟩ := hp ts₁ mid hfirst
  obtain ⟨us₂, rest', hsecond', htrees', hrest⟩ :=
    hq ts₁ us₁ mid mid' hfirst hfirst' hmid ts₂ rest hsecond
  refine ⟨us₁ ++ us₂, rest', ?_, fun h => by rw [htrees h, htrees' h], hrest⟩
  simp only [Production.andThen, hfirst', hsecond']

theorem Carries.node (h : Carries σ strict p q s t) :
    Carries σ strict (node kind p) (node kind q) s t := by
  intro ts rest hok
  obtain ⟨ts', hok', rfl⟩ := node_eq_ok hok
  obtain ⟨us, rest', hus, htrees, hrest⟩ := h ts' rest hok'
  refine ⟨[.node kind us], rest', ?_, fun h => by rw [htrees h], hrest⟩
  simp only [Production.node, hus]

theorem Carried.node (h : Carried σ strict p q) : Carried σ strict (node kind p) (node kind q) :=
  fun s t hst => (h s t hst).node

theorem Carried.seq (h : AllCarried σ strict ps qs) : Carried σ strict (seq ps) (seq qs) := by
  induction ps generalizing qs with
  | nil =>
    cases qs with
    | nil => exact .empty
    | cons q qs => exact h.elim
  | cons p ps ih =>
    cases qs with
    | nil => exact h.elim
    | cons q qs => exact fun s t hst => (h.1 s t hst).andThen fun _ _ s' t' _ _ => ih h.2 s' t'

/-- Where the first production is treated apart from those that follow. -/
theorem Carries.seq (hp : Carries σ strict p q s t) (h : AllCarried σ strict ps qs) :
    Carries σ strict (seq (p :: ps)) (seq (q :: qs)) s t :=
  hp.andThen fun _ _ s' t' _ _ => Carried.seq h s' t'

theorem Carries.keep_seq (hheld : strict → held' = held)
    (h : Carries σ strict (Production.seq ps) (Production.seq qs) s t) :
    Carries σ strict (Production.seq (Production.keep held :: ps))
      (Production.seq (Production.keep held' :: qs)) s t := by
  intro ts rest hok
  obtain ⟨ts₁, mid, ts₂, hkeep, hothers, rfl⟩ := andThen_eq_ok hok
  obtain ⟨rfl, rfl⟩ := keep_eq_ok hkeep
  obtain ⟨us, rest', hus, htrees, hrest⟩ := h ts₂ rest hothers
  refine ⟨held' ++ us, rest', ?_, fun h => by rw [hheld h, htrees h], hrest⟩
  show Production.andThen (Production.keep held') (Production.seq qs) t = _
  simp only [Production.andThen, Production.keep, hus]

/-- Where the first productions read nothing. -/
theorem Carries.skip_seq (hp : p s = .ok ([], s)) (hq : q t = .ok ([], t))
    (h : Carries σ strict (Production.seq ps) (Production.seq qs) s t) :
    Carries σ strict (Production.seq (p :: ps)) (Production.seq (q :: qs)) s t := by
  intro ts rest hok
  obtain ⟨ts₁, mid, ts₂, hfirst, hothers, rfl⟩ := andThen_eq_ok hok
  obtain ⟨rfl, rfl⟩ := Prod.mk.inj (Except.ok.inj (hp.symm.trans hfirst))
  obtain ⟨us, rest', hus, htrees, hrest⟩ := h ts₂ rest hothers
  refine ⟨us, rest', ?_, htrees, hrest⟩
  show Production.andThen q (Production.seq qs) t = _
  simp only [Production.andThen, hq, hus, List.nil_append]

theorem Carries.whenever (htest : test t = test s) (hst : σ.Aligned s t)
    (h : test s = true → Carries σ strict p q s t) :
    Carries σ strict (whenever test p) (whenever test q) s t := by
  refine .look ?_
  rw [htest]
  exact .ite h fun _ => Carried.empty s t hst

theorem Carries.whenever_true (hs : test s = true) (ht : test t = true)
    (h : Carries σ strict p q s t) :
    Carries σ strict (Production.whenever test p) (Production.whenever test q) s t := by
  intro ts rest hok
  rw [Production.whenever, Production.look, if_pos hs] at hok
  obtain ⟨us, rest', hus, hmore⟩ := h ts rest hok
  exact ⟨us, rest', by rw [Production.whenever, Production.look, if_pos ht, hus], hmore⟩

theorem Carried.whenever (htest : ∀ s t, σ.Aligned s t → test t = test s)
    (h : ∀ s t, σ.Aligned s t → test s = true → Carries σ strict p q s t) :
    Carried σ strict (whenever test p) (whenever test q) :=
  fun s t hst => .whenever (htest s t hst) hst (h s t hst)

/-! ## The opener -/

section

variable (hσ : σ.Opens)
include hσ

theorem Carries.bump (h : σ.Aligned s t) (hs : (kindAhead 0 s).opens = false)
    (hstrict : strict → (kindAhead 0 s).isAccess = false) :
    Carries σ strict bump bump s t := by
  intro ts rest hok
  cases h.step hσ with
  | opener => exact absurd rfl (TokenKind.opens_ne hσ.kind hs)
  | @next x y s t hx hxy _ hrest =>
    rw [Production.bump, if_neg hx] at hok
    obtain ⟨rfl, rfl⟩ := Prod.mk.inj (Except.ok.inj hok)
    refine ⟨[.token y.token], t, by rw [Production.bump, if_neg (hxy.ne_end hx)], fun h => ?_, hrest⟩
    rcases hxy with hxy | ⟨⟨haccess, -⟩, -⟩
    · rw [hxy]
    · have hnone : x.token.kind.isAccess = false := hstrict h
      rw [haccess] at hnone
      cases hnone
  | @ends x y hx hxy =>
    rw [Production.bump, if_pos hx] at hok
    obtain ⟨rfl, rfl⟩ := Prod.mk.inj (Except.ok.inj hok)
    refine ⟨[.token y.token], [y], by rw [Production.bump, if_pos (hxy ▸ hx)], fun _ => ?_, h⟩
    rw [hxy]

omit hσ in
theorem bump_cons {x : Lexeme} (hx : x.token.kind ≠ .endOfFile) (s : List Lexeme) :
    Production.bump (x :: s) = .ok ([.token x.token], s) := by
  rw [Production.bump, if_neg hx]

omit hσ in
/-- A lexeme is read in both texts, and then what follows it. -/
theorem Carries.bump_cons_seq {x y : Lexeme} (hx : x.token.kind ≠ .endOfFile)
    (hy : y.token.kind ≠ .endOfFile) (hxy : strict → x.token = y.token)
    (h : Carries σ strict (Production.seq ps) (Production.seq qs) s t) :
    Carries σ strict (Production.seq (Production.bump :: ps))
      (Production.seq (Production.bump :: qs)) (x :: s) (y :: t) := by
  intro ts rest hok
  obtain ⟨ts₁, mid, ts₂, hfirst, hothers, rfl⟩ := andThen_eq_ok hok
  rw [bump_cons hx] at hfirst
  obtain ⟨rfl, rfl⟩ := Prod.mk.inj (Except.ok.inj hfirst)
  obtain ⟨us, rest', hus, htrees, hrest⟩ := h ts₂ rest hothers
  refine ⟨[.token y.token] ++ us, rest', ?_, fun h => by rw [hxy h, htrees h], hrest⟩
  show Production.andThen Production.bump (Production.seq qs) (y :: t) = _
  simp only [Production.andThen, bump_cons hy, hus]

/-- A lexeme is read that may be the opener. Then what follows has to carry over from the old rest to
the new one. -/
theorem Carries.open_seq (h : σ.Aligned s t) (hs : Ready s)
    (hstrict : strict → (kindAhead 0 s).isAccess = false)
    (hat : s = σ.opener :: σ.old → t = σ.opener :: σ.new →
      Carries σ strict (Production.seq ps) (Production.seq qs) σ.old σ.new)
    (hnext : ∀ s' t', σ.Aligned s' t' → s' = s.drop 1 → t' = t.drop 1 →
      Carries σ strict (Production.seq ps) (Production.seq qs) s' t') :
    Carries σ strict (Production.seq (Production.bump :: ps))
      (Production.seq (Production.bump :: qs)) s t := by
  cases h.step hσ with
  | @next x y s t hx hxy _ hrest =>
    refine .bump_cons_seq hx (hxy.ne_end hx) (fun h => ?_) (hnext s t hrest rfl rfl)
    rcases hxy with hxy | ⟨⟨haccess, -⟩, -⟩
    · exact hxy
    · rw [show x.token.kind.isAccess = false from hstrict h] at haccess
      cases haccess
  | opener =>
    exact .bump_cons_seq (hσ.kind_ne rfl) (hσ.kind_ne rfl) (fun _ => rfl) (hat rfl rfl)
  | ends hx _ => exact absurd hx hs

/-- A lexeme of a kind that does not open, and what follows it. -/
theorem Carries.bump_seq (h : σ.Aligned s t) (hs : (kindAhead 0 s).opens = false)
    (hstrict : strict → (kindAhead 0 s).isAccess = false) (hps : AllCarried σ strict ps qs) :
    Carries σ strict (Production.seq (Production.bump :: ps))
      (Production.seq (Production.bump :: qs)) s t :=
  (Carries.bump hσ h hs hstrict).seq hps

/-- A lexeme that does not open is read, and what follows starts behind it. -/
theorem Carries.bump_drop (h : σ.Aligned s t) (hs : (kindAhead 0 s).opens = false) (hready : Ready s)
    (hstrict : strict → (kindAhead 0 s).isAccess = false)
    (hnext : ∀ s' t', σ.Aligned s' t' → s' = s.drop 1 → t' = t.drop 1 →
      Carries σ strict (Production.seq ps) (Production.seq qs) s' t') :
    Carries σ strict (Production.seq (Production.bump :: ps))
      (Production.seq (Production.bump :: qs)) s t := by
  refine .open_seq hσ h hready hstrict (fun hopener _ => ?_) hnext
  rw [hopener] at hs
  exact absurd rfl (TokenKind.opens_ne hσ.kind hs)

theorem Carries.bump_kind (h : σ.Aligned s t) {k : TokenKind} (hs : SharpLint.atKind k s = true)
    (hk : k.isPlain = true) : Carries σ strict Production.bump Production.bump s t := by
  obtain ⟨hopens, haccess⟩ := TokenKind.isPlain_iff.mp hk
  have hkind : kindAhead 0 s = k := beq_iff_eq.mp hs
  exact .bump hσ h (hkind ▸ hopens) fun _ => hkind ▸ haccess

theorem Carried.expect {k : TokenKind} {what : String} (hk : k.isPlain = true) :
    Carried σ strict (expect k what) (expect k what) := by
  intro s t h
  refine .look ?_
  rw [h.atKind hσ (TokenKind.isPlain_iff.mp hk).2]
  exact .ite (fun hs => .bump_kind hσ h hs hk) fun _ => .fail

/-- A lexeme is expected that may be the opener. -/
theorem Carried.expect_seq {k : TokenKind} {what : String} (hk : k.isAccess = false)
    (hend : k ≠ .endOfFile)
    (hat : σ.opener.token.kind = k →
      Carries σ strict (Production.seq ps) (Production.seq qs) σ.old σ.new)
    (hps : AllCarried σ strict ps qs) :
    Carried σ strict (Production.seq (Production.expect k what :: ps))
      (Production.seq (Production.expect k what :: qs)) := by
  intro s t h ts rest hok
  obtain ⟨ts₁, mid, ts₂, hfirst, hothers, rfl⟩ := andThen_eq_ok hok
  by_cases hs : SharpLint.atKind k s = true
  · have ht : SharpLint.atKind k t = true := (h.atKind hσ hk).trans hs
    have hkind : kindAhead 0 s = k := beq_iff_eq.mp hs
    have heq (s : List Lexeme) (hs : SharpLint.atKind k s = true) (ps : List Production) :
        Production.seq (Production.expect k what :: ps) s =
          Production.seq (Production.bump :: ps) s := by
      show Production.andThen _ _ s = Production.andThen _ _ s
      simp only [Production.andThen, Production.expect, Production.look, if_pos hs]
    have hbump : Carries σ strict (Production.seq (Production.bump :: ps))
        (Production.seq (Production.bump :: qs)) s t :=
      .open_seq hσ h (ready_of_kind hkind hend) (fun _ => hkind ▸ hk)
        (fun hopener _ => hat (by rwa [hopener] at hkind)) fun s' t' h' _ _ => Carried.seq hps s' t' h'
    rw [heq s hs] at hok
    rw [heq t ht]
    exact hbump _ _ hok
  · rw [Production.expect, Production.look, if_neg hs] at hfirst
    cases hfirst

theorem Carried.eat {k : TokenKind} (hk : k.isPlain = true) : Carried σ strict (eat k) (eat k) :=
  .whenever (fun _ _ h => h.atKind hσ (TokenKind.isPlain_iff.mp hk).2) fun _ _ h hs =>
    .bump_kind hσ h hs hk

/-! ## Loops -/

theorem Carries.manyUpTo (htest : ∀ s t, σ.Aligned s t → test t = test s)
    (hp : ∀ s, test s = true → InStepAt 1 p p s) (hq : ∀ s, test s = true → InStepAt 1 q q s)
    (h : ∀ s t, σ.Aligned s t → test s = true → Carries σ strict p q s t) {n m : Nat}
    (hst : σ.Aligned s t) (hn : s.length ≤ n) (hm : t.length ≤ m) :
    Carries σ strict (manyUpTo test p n) (manyUpTo test q m) s t := by
  induction n generalizing s t m with
  | zero => exact absurd (List.length_eq_zero_iff.mp (Nat.le_zero.mp hn)) (hst.ne_nil hσ).1
  | succ n ih =>
    cases m with
    | zero => exact absurd (List.length_eq_zero_iff.mp (Nat.le_zero.mp hm)) (hst.ne_nil hσ).2
    | succ m =>
      refine .whenever (htest s t hst) hst fun hs => ?_
      refine (h s t hst hs).andThen fun ts us s' t' hok hok' hrest => ?_
      have hs' := ((hp s hs).reads ts s' hok).length_add_le
      have ht' := ((hq t ((htest s t hst).trans hs)).reads us t' hok').length_add_le
      exact ih hrest (by omega) (by omega)

theorem Carried.many (htest : ∀ s t, σ.Aligned s t → test t = test s)
    (hp : ∀ s, test s = true → InStepAt 1 p p s) (hq : ∀ s, test s = true → InStepAt 1 q q s)
    (h : ∀ s t, σ.Aligned s t → test s = true → Carries σ strict p q s t) :
    Carried σ strict (many test p) (many test q) :=
  fun _ _ hst => .look (.manyUpTo hσ htest hp hq h hst (Nat.le_refl _) (Nat.le_refl _))

/-- A comma, and the item behind it. -/
theorem Carries.comma_seq (h : Carried σ strict p q) (hst : σ.Aligned s t)
    (hs : SharpLint.atKind .comma s = true) (hps : AllCarried σ strict ps qs) :
    Carries σ strict (Production.seq (Production.bump :: p :: ps))
      (Production.seq (Production.bump :: q :: qs)) s t :=
  (Carries.bump_kind hσ hst hs rfl).seq ⟨h, hps⟩

section

variable {g g' : Inner} (hg : g.Reads) (hg' : g'.Reads)
include hg hg'

/-- The first item may be carried over by itself. -/
theorem Carries.separated (hp : Separates g p) (hq : Separates g' q) (hfirst : Carries σ strict p q s t)
    (h : Carried σ strict p q) : Carries σ strict (separated p) (separated q) s t := by
  have hmore : Carried σ strict (many (SharpLint.atKind .comma) (Production.seq [Production.bump, p]))
      (many (SharpLint.atKind .comma) (Production.seq [Production.bump, q])) :=
    .many hσ (fun _ _ hst => hst.atKind hσ rfl) (fun _ => (Repeats.moreItems hp).reads hg)
      (fun _ => (Repeats.moreItems hq).reads hg') fun _ _ hst hs => .comma_seq hσ h hst hs trivial
  exact hfirst.seq ⟨hmore, trivial⟩

theorem Carried.separated (hp : Separates g p) (hq : Separates g' q) (h : Carried σ strict p q) :
    Carried σ strict (separated p) (separated q) :=
  fun s t hst => .separated hσ hg hg' hp hq (h s t hst) h

theorem Carries.itemsUpTo (htest : ∀ s t, σ.Aligned s t → test t = test s) (hp : Lists g test p)
    (hq : Lists g' test q) (h : Carried σ strict p q) {n m : Nat} (hst : σ.Aligned s t)
    (hn : s.length ≤ n) (hm : t.length ≤ m) :
    Carries σ strict (itemsUpTo test p n) (itemsUpTo test q m) s t := by
  induction n generalizing s t m with
  | zero => exact absurd (List.length_eq_zero_iff.mp (Nat.le_zero.mp hn)) (hst.ne_nil hσ).1
  | succ n ih =>
    cases m with
    | zero => exact absurd (List.length_eq_zero_iff.mp (Nat.le_zero.mp hm)) (hst.ne_nil hσ).2
    | succ m =>
      refine .whenever (htest s t hst) hst fun _ => ?_
      refine (h s t hst).andThen fun ts us s' t' hok hok' hrest => Carries.seq ?_ trivial
      refine .whenever (hrest.atKind hσ rfl) hrest fun hcomma => ?_
      have hkind : kindAhead 0 s' = .comma := beq_iff_eq.mp hcomma
      have hs' := ((hp.reads hg s).reads ts s' hok).length_add_le
      have ht' := ((hq.reads hg' t).reads us t' hok').length_add_le
      refine .bump_drop hσ hrest (hkind ▸ rfl) (ready_of_kind hkind nofun) (fun _ => hkind ▸ rfl)
        fun s'' t'' hst' hdrop hdrop' => ?_
      have hlength (l : List Lexeme) : (l.drop 1).length ≤ l.length := by simp
      have hs'' := hdrop ▸ hlength s'
      have ht'' := hdrop' ▸ hlength t'
      exact .seq (ih hst' (by omega) (by omega)) trivial

theorem Carried.items (htest : ∀ s t, σ.Aligned s t → test t = test s) (hp : Lists g test p)
    (hq : Lists g' test q) (h : Carried σ strict p q) :
    Carried σ strict (items test p) (items test q) :=
  fun _ _ hst => .look (.itemsUpTo hσ hg hg' htest hp hq h hst (Nat.le_refl _) (Nat.le_refl _))

omit hσ in
/-- One round of a chain, and the rounds behind it. -/
theorem Carries.chainUpTo_succ {suffix suffix' : Suffix} (hp : Chains g suffix) (hq : Chains g' suffix')
    {tail tail' : Production} (hs : suffix s = some (kind, tail)) (ht : suffix' t = some (kind, tail'))
    (htail : Carries σ strict tail tail' s t) (hheld : strict → held' = held) {n m : Nat}
    (hn : s.length ≤ n + 1) (hm : t.length ≤ m + 1)
    (hmore : ∀ ts us s' t', (strict → us = ts) → σ.Aligned s' t' → s'.length ≤ n → t'.length ≤ m →
      Carries σ strict (chainUpTo suffix n ts) (chainUpTo suffix' m us) s' t') :
    Carries σ strict (chainUpTo suffix (n + 1) held) (chainUpTo suffix' (m + 1) held') s t := by
  refine .look ?_
  rw [hs, ht]
  intro ts rest hok
  obtain ⟨ts₁, s', hfirst, hthen⟩ := extend_eq_ok hok
  have hnode : Carries σ strict (Production.node kind (Production.seq [Production.keep held, tail]))
      (Production.node kind (Production.seq [Production.keep held', tail'])) s t :=
    .node (.keep_seq hheld (htail.seq trivial))
  obtain ⟨us₁, t', hfirst', htrees, hrest⟩ := hnode ts₁ s' hfirst
  have hreads : InStepAt 1 (Production.node kind (Production.seq [Production.keep held, tail])) _ s :=
    (hp.reads hg hs).operand
  have hreads' : InStepAt 1 (Production.node kind (Production.seq [Production.keep held', tail'])) _ t :=
    (hq.reads hg' ht).operand
  have hs' := (hreads.reads ts₁ s' hfirst).length_add_le
  have ht' := (hreads'.reads us₁ t' hfirst').length_add_le
  obtain ⟨us, rest', hthen', hthere⟩ :=
    hmore ts₁ us₁ s' t' htrees hrest (by omega) (by omega) ts rest hthen
  refine ⟨us, rest', ?_, hthere⟩
  show Production.extend (Production.node kind (Production.seq [Production.keep held', tail']))
    (Production.chainUpTo suffix' m) t = _
  rw [Production.extend, hfirst']
  exact hthen'

theorem Carries.chainUpTo {suffix suffix' : Suffix} (hsuffix : CarriedSuffix σ strict suffix suffix')
    (hp : Chains g suffix) (hq : Chains g' suffix') {n m : Nat} (hst : σ.Aligned s t)
    (hheld : strict → held' = held) (hn : s.length ≤ n) (hm : t.length ≤ m) :
    Carries σ strict (chainUpTo suffix n held) (chainUpTo suffix' m held') s t := by
  induction n generalizing s t m held held' with
  | zero => exact absurd (List.length_eq_zero_iff.mp (Nat.le_zero.mp hn)) (hst.ne_nil hσ).1
  | succ n ih =>
    cases m with
    | zero => exact absurd (List.length_eq_zero_iff.mp (Nat.le_zero.mp hm)) (hst.ne_nil hσ).2
    | succ m =>
      obtain ⟨hs, ht⟩ | ⟨kind, tail, tail', hs, ht, htail⟩ := hsuffix s t hst
      · refine .look ?_
        rw [hs, ht]
        exact .keep hheld hst
      · exact .chainUpTo_succ hg hg' hp hq hs ht htail hheld hn hm
          fun ts us s' t' htrees hst' hn' hm' => ih hst' htrees hn' hm'

theorem Carries.chain {suffix suffix' : Suffix} (hfirst : Carries σ strict p q s t)
    (hsuffix : CarriedSuffix σ strict suffix suffix') (hp : Chains g suffix) (hq : Chains g' suffix') :
    Carries σ strict (chain p suffix) (chain q suffix') s t :=
  hfirst.extend fun _ _ _ _ htrees hst => .look <|
    .chainUpTo hσ hg hg' hsuffix hp hq hst htrees (Nat.le_refl _) (Nat.le_refl _)

end

end

/-! ## What follows an operand -/

theorem CarriedSuffix.ite (htest : ∀ s t, σ.Aligned s t → test t = test s)
    (h : ∀ s t, σ.Aligned s t → test s = true → Carries σ strict p q s t) :
    CarriedSuffix σ strict (fun s => if test s then some (kind, p) else none)
      (fun s => if test s then some (kind, q) else none) := by
  intro s t hst
  by_cases hs : test s = true
  · refine .inr ⟨kind, p, q, if_pos hs, if_pos ((htest s t hst).trans hs), h s t hst hs⟩
  · refine .inl ⟨if_neg hs, if_neg fun ht => hs ((htest s t hst).symm.trans ht)⟩

theorem Carries.suffixed {suffix suffix' : Suffix} (hsuffix : CarriedSuffix σ strict suffix suffix')
    (hheld : strict → held' = held) (hst : σ.Aligned s t) :
    Carries σ strict (suffixed suffix held) (suffixed suffix' held') s t := by
  refine .look ?_
  obtain ⟨hs, ht⟩ | ⟨kind, tail, tail', hs, ht, htail⟩ := hsuffix s t hst
  · rw [hs, ht]
    exact .keep hheld hst
  · rw [hs, ht]
    exact .node (.keep_seq hheld (htail.seq trivial))

/-- An operand that carries over, and what follows it. -/
theorem Carries.extend_suffixed {suffix suffix' : Suffix} (hp : Carries σ strict p q s t)
    (hsuffix : CarriedSuffix σ strict suffix suffix') :
    Carries σ strict (Production.extend p (Production.suffixed suffix))
      (Production.extend q (Production.suffixed suffix')) s t :=
  hp.extend fun _ _ _ _ htrees hst => .suffixed hsuffix htrees hst

end SharpLint.Production

/-!
## Types

No type has the opener of a site in it. So a type that stands in front of the site, or behind it, is read
as the same trees in both texts (`carried_wholeType`), and a look ahead for a type gives the same answer
(`testAfterType_aligned`).
-/

namespace SharpLint

open Production

/-- Every level reads as the whole grammar does. -/
theorem Inner.reads_level (n : Nat) : (level n).Reads := by
  induction n with
  | zero =>
    intro x s
    cases x <;> exact .fail
  | succ n ih => exact ih.unfold

/-- A word that starts a type neither opens a site nor is a word for accessibility. -/
theorem TokenKind.of_isPredefinedType {k : TokenKind}
    (h : k.keyword?.any Keyword.isPredefinedType = true) : k.opens = false ∧ k.isAccess = false := by
  cases k with
  | keyword k => cases k <;> first | exact ⟨rfl, rfl⟩ | cases h
  | _ => cases h

namespace Grammar

variable {σ : Site} (hσ : σ.Opens) {s t : List Lexeme} {strict : Prop}
include hσ

/-! ### What a type is made of -/

theorem atPredefinedType_aligned (h : σ.Aligned s t) : atPredefinedType t = atPredefinedType s := by
  refine h.test hσ (f := fun k => k.keyword?.any Keyword.isPredefinedType) fun j k hj hk => ?_
  have hnone {k : TokenKind} (hk : k.isAccess = true) :
      k.keyword?.any Keyword.isPredefinedType = false := by
    rw [← Bool.not_eq_true]
    intro hpredefined
    rw [(TokenKind.of_isPredefinedType hpredefined).2] at hk
    cases hk
  rw [hnone hj, hnone hk]

theorem atDotName_aligned (h : σ.Aligned s t) : atDotName t = atDotName s := h.both hσ rfl rfl

theorem atRank_aligned (h : σ.Aligned s t) : atRank t = atRank s := by
  have hclose : (atKind .openBracket t && kindAhead 1 t == .closeBracket) =
      (atKind .openBracket s && kindAhead 1 s == .closeBracket) := h.both hσ rfl rfl
  have hcomma : (atKind .openBracket t && kindAhead 1 t == .comma) =
      (atKind .openBracket s && kindAhead 1 s == .comma) := h.both hσ rfl rfl
  rw [atRank, atRank, Bool.and_or_distrib_left, Bool.and_or_distrib_left, hclose, hcomma]

theorem carries_predefinedType (h : σ.Aligned s t) (hs : atPredefinedType s = true) :
    Carries σ strict predefinedType predefinedType s t := by
  obtain ⟨hopens, haccess⟩ := TokenKind.of_isPredefinedType hs
  exact .node (.bump hσ h hopens fun _ => haccess)

theorem carries_rank (h : σ.Aligned s t) (hs : atRank s = true) :
    Carries σ strict rank rank s t := by
  have hcommas : Carried σ strict (many (atKind .comma) bump) (many (atKind .comma) bump) :=
    .many hσ (fun _ _ h => h.atKind hσ rfl) (fun _ hs => .bump (ready_of_atKind hs nofun))
      (fun _ hs => .bump (ready_of_atKind hs nofun)) fun _ _ h hs => .bump_kind hσ h hs rfl
  exact .node ((Carries.bump_kind hσ h (Bool.and_eq_true_iff.mp hs).1 rfl).seq
    ⟨hcommas, .expect hσ rfl, trivial⟩)

variable {g g' : Inner} (hg : g.Reads) (hg' : g'.Reads) (htype : Carried σ strict g.type g'.type)
include hg hg' htype

theorem carries_typeArguments (h : σ.Aligned s t) (hs : atKind .lt s = true) :
    Carries σ strict (typeArguments g) (typeArguments g') s t := by
  have htypes : Carried σ strict (separated g.type) (separated g'.type) :=
    .separated hσ hg hg' .typeArguments .typeArguments htype
  exact .node ((Carries.bump_kind hσ h hs rfl).seq ⟨htypes, .expect hσ rfl, trivial⟩)

theorem carried_simpleTypeName : Carried σ strict (simpleTypeName g) (simpleTypeName g') := by
  intro s t h
  have hname : Carried σ strict (expect .identifier "type name") (expect .identifier "type name") :=
    .expect hσ rfl
  refine (hname s t h).extend fun name name' s t hname h => .look ?_
  rw [h.atKind hσ (by rfl)]
  refine .ite (fun hs => ?_) fun _ => .node (.keep hname h)
  exact .node (.keep_seq hname ((carries_typeArguments hσ hg hg' htype h hs).seq trivial))

theorem carried_namedType : Carried σ strict (namedType g) (namedType g') := by
  have hpart (s t : List Lexeme) (h : σ.Aligned s t) (hs : atDotName s = true) :
      Carries σ strict (seq [bump, simpleTypeName g]) (seq [bump, simpleTypeName g']) s t :=
    (Carries.bump_kind hσ h (Bool.and_eq_true_iff.mp hs).1 rfl).seq
      ⟨carried_simpleTypeName hσ hg hg' htype, trivial⟩
  have hparts : Carried σ strict (many atDotName (seq [bump, simpleTypeName g]))
      (many atDotName (seq [bump, simpleTypeName g'])) :=
    .many hσ (fun _ _ => atDotName_aligned hσ) (fun _ => Repeats.typeNameParts.reads hg)
      (fun _ => Repeats.typeNameParts.reads hg') hpart
  intro s t h
  exact (carried_simpleTypeName hσ hg hg' htype s t h).extend_suffixed
    (.ite (fun _ _ => atDotName_aligned hσ) fun s t h _ => hparts s t h)

theorem carried_type : Carried σ strict (type g) (type g') := by
  have hranks : Carried σ strict (many atRank rank) (many atRank rank) :=
    .many hσ (fun _ _ => atRank_aligned hσ) (fun _ => Repeats.ranks.reads hg)
      (fun _ => Repeats.ranks.reads hg') fun _ _ => carries_rank hσ
  intro s t h
  have hhead : Carries σ strict
      (look fun s => if atPredefinedType s then predefinedType
        else if atKind .identifier s then namedType g else fail "type")
      (look fun s => if atPredefinedType s then predefinedType
        else if atKind .identifier s then namedType g' else fail "type") s t := by
    refine .look ?_
    rw [atPredefinedType_aligned hσ h, h.atKind hσ (by rfl)]
    exact .ite (carries_predefinedType hσ h) fun _ =>
      .ite (fun _ => carried_namedType hσ hg hg' htype s t h) fun _ => .fail
  exact (hhead.extend_suffixed (.ite (fun _ _ h => h.atKind hσ rfl) fun _ _ h hs =>
    .bump_kind hσ h hs rfl)).extend_suffixed (.ite (fun _ _ => atRank_aligned hσ) fun s t h _ =>
    hranks s t h)

end Grammar

/-! ### The whole grammar -/

open Grammar

theorem Inner.part_type (g : Inner) : g.part .type = g.type := rfl

theorem Inner.type_whole : Grammar.type whole = whole.type := congrArg Inner.type unfold_whole

section

variable {σ : Site} (hσ : σ.Opens) {s t : List Lexeme}
include hσ

theorem carried_levelType (n : Nat) :
    Carried σ True (Inner.level n).type Inner.whole.type := by
  induction n with
  | zero => exact fun _ _ _ => .fail
  | succ n ih =>
    have hnext := carried_type hσ (Inner.reads_level n) Inner.reads_whole ih
    rwa [Inner.type_whole] at hnext

/-- A type in front of a site or behind it is the same in both texts. -/
theorem carried_wholeType : Carried σ True Inner.whole.type Inner.whole.type := by
  intro s t h ts rest hok
  have hlevel := Inner.part_level .type (Nat.lt_succ_self s.length)
  rw [Inner.part_type, Inner.part_type] at hlevel
  rw [← hlevel] at hok
  exact carried_levelType hσ (s.length + 1) s t h ts rest hok

end

theorem Site.Opens.flip {σ : Site} (hσ : σ.Opens) : σ.flip.Opens := ⟨hσ.kind, hσ.text⟩

variable {σ : Site} (hσ : σ.Opens) {s t : List Lexeme}
include hσ

/-- At places that are aligned, a type can be read in both texts or in none. -/
theorem wholeType_aligned (h : σ.Aligned s t) :
    (∃ ts s' t', Inner.whole.type s = .ok (ts, s') ∧ Inner.whole.type t = .ok (ts, t') ∧
      σ.Aligned s' t') ∨
    ∃ e f, Inner.whole.type s = .error e ∧ Inner.whole.type t = .error f := by
  cases hs : Inner.whole.type s with
  | ok read =>
    obtain ⟨us, t', ht, htrees, hrest⟩ := carried_wholeType hσ s t h read.1 read.2 hs
    exact .inl ⟨read.1, read.2, t', rfl, htrees trivial ▸ ht, hrest⟩
  | error e =>
    cases ht : Inner.whole.type t with
    | ok read =>
      -- on the way back, the type that the new text has is read in the old one
      obtain ⟨ts, s', hback, -, -⟩ := carried_wholeType hσ.flip t s h.flip read.1 read.2 ht
      rw [hs] at hback
      cases hback
    | error f => exact .inr ⟨e, f, rfl, rfl⟩

omit hσ in
theorem Grammar.type_eq_whole {g : Inner} (hg : g.type = Inner.whole.type) :
    Grammar.type g = Inner.whole.type := by
  rw [← Inner.type_whole]
  simp only [Grammar.type, namedType, simpleTypeName, typeArguments, hg]

/-- A test of what comes after a type. -/
theorem testAfterType_aligned {test : List Lexeme → Bool} {g g' : Inner}
    (hg : g.type = Inner.whole.type) (hg' : g'.type = Inner.whole.type)
    (htest : ∀ s t, σ.Aligned s t → test t = test s) (h : σ.Aligned s t) :
    (match afterType? g' t with
      | none => false
      | some rest => test rest) =
    match afterType? g s with
      | none => false
      | some rest => test rest := by
  unfold afterType?
  rw [type_eq_whole hg, type_eq_whole hg']
  obtain ⟨ts, s', t', hs, ht, hrest⟩ | ⟨e, f, hs, ht⟩ := wholeType_aligned hσ h
  · rw [hs, ht]
    exact htest s' t' hrest
  · rw [hs, ht]

end SharpLint
