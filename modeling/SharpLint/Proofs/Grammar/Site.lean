import SharpLint.Proofs.Grammar.Loops

/-!
# Two lists of lexemes that differ at one site

Behind a lexeme, the opener, the rest of a text is exchanged. A run over the old text and a run over the
new one stand at places that are aligned as long as both are in front of the opener, or both are behind
the site and what is left is the same but for offsets and words for accessibility:

    a ++ opener :: old      s
    a ++ opener :: new      t        Same s t

A production carries over from `s` to `t` when it can be read at `t` wherever it can be read at `s`,
and both runs end at places that are aligned (`Carries`). Only a step over the opener leaves the
aligned places; so where a production starts with a lexeme that may be the opener, what follows has to
carry over from the old rest to the new one (`Carries.open_seq`).
-/

namespace SharpLint

open Production Grammar

/-! ## Lexemes that are the same -/

/-- A word for accessibility. -/
def TokenKind.isAccess (k : TokenKind) : Bool := k.keyword?.any Keyword.isAccessibility

namespace Lexeme

/-- A word for accessibility; its text is no word that the grammar asks for. -/
def IsAccess (l : Lexeme) : Prop := l.token.kind.isAccess = true ∧ l.token.text ≠ "operator"

/-- The same token, or two words for accessibility. -/
def Near (a b : Lexeme) : Prop := a.token = b.token ∨ a.IsAccess ∧ b.IsAccess

end Lexeme

/-- The same lexemes up to offsets and words for accessibility, with the same `>` touching, up to the
end of the text. -/
inductive Same : List Lexeme → List Lexeme → Prop
  | ends {a b : Lexeme} : a.token.kind = .endOfFile → a.token = b.token → Same [a] [b]
  | cons {a b : Lexeme} {s t : List Lexeme} : a.token.kind ≠ .endOfFile → a.Near b →
      atRightShift (a :: s) = atRightShift (b :: t) → Same s t → Same (a :: s) (b :: t)

theorem TokenKind.isAccess_iff {k : TokenKind} :
    k.isAccess = true ↔ ∃ w : Keyword, k = .keyword w ∧ w.isAccessibility = true := by
  cases k <;> simp [TokenKind.isAccess, TokenKind.keyword?]

/-- What is the same at all words for accessibility. -/
theorem TokenKind.eq_of_isAccess {α : Type} {f : TokenKind → α} {a : α}
    (hf : ∀ w : Keyword, w.isAccessibility = true → f (.keyword w) = a) {j k : TokenKind}
    (hj : j.isAccess = true) (hk : k.isAccess = true) : f j = f k := by
  obtain ⟨v, rfl, hv⟩ := isAccess_iff.mp hj
  obtain ⟨w, rfl, hw⟩ := isAccess_iff.mp hk
  rw [hf v hv, hf w hw]

theorem Lexeme.Near.symm {a b : Lexeme} (h : a.Near b) : b.Near a := h.imp Eq.symm And.symm

theorem Lexeme.Near.kind {a b : Lexeme} (h : a.Near b) : b.token.kind = a.token.kind ∨
    a.token.kind.isAccess = true ∧ b.token.kind.isAccess = true := by
  rcases h with h | ⟨ha, hb⟩
  · rw [h]
    exact .inl rfl
  · exact .inr ⟨ha.1, hb.1⟩

theorem Lexeme.Near.ne_end {a b : Lexeme} (h : a.Near b) (ha : a.token.kind ≠ .endOfFile) :
    b.token.kind ≠ .endOfFile := by
  rcases h with h | ⟨-, hb, -⟩
  · rwa [← h]
  · intro hend
    rw [hend] at hb
    cases hb

theorem Same.symm {s t : List Lexeme} (h : Same s t) : Same t s := by
  induction h with
  | ends ha hab => exact .ends (hab ▸ ha) hab.symm
  | cons ha hab hshift _ ih => exact .cons (hab.ne_end ha) hab.symm hshift.symm ih

theorem Same.tail {a b : Lexeme} {s t : List Lexeme} (h : Same (a :: s) (b :: t))
    (ha : a.token.kind ≠ .endOfFile) : Same s t := by
  cases h with
  | ends hend _ => exact absurd hend ha
  | cons _ _ _ h => exact h

/-! ## Sites -/

/-- Tokens that an operand follows, wherever they stand in a text, and that no type is made of. -/
def TokenKind.opens : TokenKind → Bool
  | .openParen | .arrow | .keyword .kwReturn => true
  | .lt | .gt => false
  | k => (NodeKind.ofOperator? k).isSome

/-- Neither an opener nor a word for accessibility. -/
def TokenKind.isPlain (k : TokenKind) : Bool := !k.opens && !k.isAccess

theorem TokenKind.isPlain_iff {k : TokenKind} :
    k.isPlain = true ↔ k.opens = false ∧ k.isAccess = false := by
  simp [isPlain]

/-- Behind the opener, the old lexemes are exchanged for the new ones; `bracket` tells that a closing
bracket may stand directly in front of the opener. -/
structure Site where
  bracket : Bool
  opener : Lexeme
  old : List Lexeme
  new : List Lexeme

namespace Site

/-- The site for the way back. -/
def flip (σ : Site) : Site := ⟨σ.bracket, σ.opener, σ.new, σ.old⟩

/-- The opener is one, and is not the word of an operator declaration. -/
structure Opens (σ : Site) : Prop where
  kind : σ.opener.token.kind.opens = true
  text : σ.opener.token.text ≠ "operator"

/-- Lexemes in front of the opener: no end of the text, in the head of an operator declaration there is
a parenthesis before the site, and a bracket directly in front of the opener is known. -/
def Leads (σ : Site) : List Lexeme → Prop
  | [] => True
  | x :: a => x.token.kind ≠ .endOfFile ∧
      (x.token.text = "operator" → ∃ p ∈ a ++ [σ.opener], p.token.kind = .openParen) ∧
      (x.token.kind = .closeBracket → a = [] → σ.bracket = true) ∧ σ.Leads a

theorem Leads.tail {σ : Site} {x : Lexeme} {a : List Lexeme} (h : σ.Leads (x :: a)) : σ.Leads a :=
  h.2.2.2

theorem Leads.flip {σ : Site} {a : List Lexeme} (h : σ.Leads a) : σ.flip.Leads a := by
  induction a with
  | nil => trivial
  | cons x a ih => exact ⟨h.1, h.2.1, h.2.2.1, ih h.tail⟩

/-- Places of the two runs that match. -/
inductive Aligned (σ : Site) : List Lexeme → List Lexeme → Prop
  | before {a : List Lexeme} : σ.Leads a →
      σ.Aligned (a ++ σ.opener :: σ.old) (a ++ σ.opener :: σ.new)
  | behind {s t : List Lexeme} : Same s t → σ.Aligned s t

variable {σ : Site} {s t : List Lexeme}

theorem Aligned.flip (h : σ.Aligned s t) : σ.flip.Aligned t s := by
  cases h with
  | before ha => exact .before ha.flip
  | behind h => exact .behind h.symm

/-- A step over the next lexeme, at the opener, or at the end of the text. -/
inductive Step (σ : Site) : List Lexeme → List Lexeme → Prop
  | next {x y : Lexeme} {s t : List Lexeme} : x.token.kind ≠ .endOfFile → x.Near y →
      atRightShift (x :: s) = atRightShift (y :: t) → σ.Aligned s t → σ.Step (x :: s) (y :: t)
  | opener : σ.Step (σ.opener :: σ.old) (σ.opener :: σ.new)
  | ends {x y : Lexeme} : x.token.kind = .endOfFile → x.token = y.token → σ.Step [x] [y]

end Site

theorem TokenKind.opens_ne {k j : TokenKind} (hk : k.opens = true) (hj : j.opens = false) : k ≠ j := by
  rintro rfl
  rw [hk] at hj
  cases hj

namespace Site

variable {σ : Site} (hσ : σ.Opens) {s t : List Lexeme}
include hσ

theorem Opens.kind_ne {k : TokenKind} (hk : k.opens = false) : σ.opener.token.kind ≠ k :=
  TokenKind.opens_ne hσ.kind hk

theorem Aligned.step (h : σ.Aligned s t) : σ.Step s t := by
  cases h with
  | @before a ha =>
    cases a with
    | nil => exact .opener
    | cons x a =>
      refine .next ha.1 (.inl rfl) ?_ (.before ha.tail)
      cases a with
      | cons y a => rfl
      | nil =>
        have hgt : (σ.opener.token.kind == .gt) = false := by simpa using hσ.kind_ne rfl
        simp [atRightShift, hgt]
  | behind h =>
    cases h with
    | ends ha hab => exact .ends ha hab
    | cons ha hab hshift h => exact .next ha hab hshift (.behind h)

theorem Aligned.ne_nil (h : σ.Aligned s t) : s ≠ [] ∧ t ≠ [] := by
  cases h.step hσ <;> exact ⟨List.cons_ne_nil _ _, List.cons_ne_nil _ _⟩

/-! ## Looking ahead -/

/-- The next lexeme has the same kind, or is a word for accessibility in both texts. -/
theorem Aligned.kind (h : σ.Aligned s t) : kindAhead 0 t = kindAhead 0 s ∨
    (kindAhead 0 s).isAccess = true ∧ (kindAhead 0 t).isAccess = true := by
  cases h.step hσ with
  | next _ hxy _ _ => exact hxy.kind
  | opener => exact .inl rfl
  | ends _ hxy => exact .inl (congrArg Token.kind hxy.symm)

theorem Aligned.atKind (h : σ.Aligned s t) {k : TokenKind} (hk : k.isAccess = false) :
    atKind k t = atKind k s := by
  rcases h.kind hσ with hkind | ⟨hs, ht⟩
  · rw [SharpLint.atKind, SharpLint.atKind, hkind]
  · have hne {j : TokenKind} (hj : j.isAccess = true) : (j == k) = false := by
      rw [beq_eq_false_iff_ne]
      rintro rfl
      rw [hj] at hk
      cases hk
    rw [SharpLint.atKind, SharpLint.atKind, hne hs, hne ht]

theorem Aligned.atKeyword (h : σ.Aligned s t) {k : Keyword}
    (hk : (TokenKind.keyword k).isAccess = false) : atKeyword k t = atKeyword k s :=
  h.atKind hσ hk

theorem Aligned.atEnd (h : σ.Aligned s t) : atEnd t = atEnd s := h.atKind hσ rfl

theorem Aligned.beforeKind (h : σ.Aligned s t) {k : TokenKind} (hk : k.isAccess = false) :
    SharpLint.before k t = SharpLint.before k s := by
  rw [SharpLint.before, SharpLint.before, h.atKind hσ hk, h.atEnd hσ]

/-- A test of the next kind that does not tell words for accessibility apart. -/
theorem Aligned.test {α : Type} (h : σ.Aligned s t) {f : TokenKind → α}
    (hf : ∀ j k, j.isAccess = true → k.isAccess = true → f j = f k) :
    f (kindAhead 0 t) = f (kindAhead 0 s) := by
  rcases h.kind hσ with hkind | ⟨hs, ht⟩
  · rw [hkind]
  · exact hf _ _ ht hs

theorem Aligned.atWord (h : σ.Aligned s t) (word : String) : atWord word t = atWord word s := by
  rw [SharpLint.atWord, SharpLint.atWord, h.atKind hσ (by rfl)]
  cases h.step hσ with
  | opener => rfl
  | ends _ hxy => simp [hxy]
  | @next x y s t hx hxy _ _ =>
    rcases hxy with hxy | ⟨⟨ha, -⟩, -⟩
    · simp [hxy]
    · have hkind : SharpLint.atKind .identifier (x :: s) = false := by
        simp only [SharpLint.atKind, kindAhead, List.getElem?_cons_zero, Option.map_some,
          Option.getD_some, beq_eq_false_iff_ne]
        intro hk
        rw [hk] at ha
        cases ha
      rw [hkind, Bool.false_and, Bool.false_and]

theorem Aligned.atRightShift (h : σ.Aligned s t) : atRightShift t = atRightShift s := by
  cases h.step hσ with
  | next _ _ hshift _ => exact hshift.symm
  | opener =>
    have hgt : (σ.opener.token.kind == .gt) = false := by simpa using hσ.kind_ne rfl
    cases σ.old <;> cases σ.new <;> simp [Grammar.atRightShift, hgt]
  | ends => rfl

/-- Behind a lexeme that is no opener, the next places are aligned. -/
theorem Aligned.drop (h : σ.Aligned s t) (hs : (kindAhead 0 s).opens = false) :
    σ.Aligned (s.drop 1) (t.drop 1) ∨ kindAhead 0 s = .endOfFile ∧ s.drop 1 = [] ∧ t.drop 1 = [] := by
  cases h.step hσ with
  | next _ _ _ hrest => exact .inl hrest
  | opener => exact absurd rfl (TokenKind.opens_ne hσ.kind hs)
  | ends hx _ => exact .inr ⟨hx, rfl, rfl⟩

omit hσ in
theorem kindAhead_drop (s : List Lexeme) : kindAhead 1 s = kindAhead 0 (s.drop 1) := by
  simp [kindAhead]

/-- The lexeme behind the next one. -/
theorem Aligned.second (h : σ.Aligned s t) (hs : (kindAhead 0 s).opens = false) :
    kindAhead 1 t = kindAhead 1 s ∨
      (kindAhead 1 s).isAccess = true ∧ (kindAhead 1 t).isAccess = true := by
  rw [kindAhead_drop, kindAhead_drop]
  rcases h.drop hσ hs with h | ⟨-, hs, ht⟩
  · exact h.kind hσ
  · rw [hs, ht]
    exact .inl rfl

theorem Aligned.secondIs (h : σ.Aligned s t) (hs : (kindAhead 0 s).opens = false) {k : TokenKind}
    (hk : k.isAccess = false) : (kindAhead 1 t == k) = (kindAhead 1 s == k) := by
  rw [kindAhead_drop, kindAhead_drop]
  rcases h.drop hσ hs with h | ⟨-, hs, ht⟩
  · exact h.atKind hσ hk
  · rw [hs, ht]

/-- Two lexemes in a row. -/
theorem Aligned.both (h : σ.Aligned s t) {j k : TokenKind} (hj : j.isPlain = true)
    (hk : k.isAccess = false) :
    (SharpLint.atKind j t && kindAhead 1 t == k) = (SharpLint.atKind j s && kindAhead 1 s == k) := by
  obtain ⟨hopens, haccess⟩ := TokenKind.isPlain_iff.mp hj
  rw [h.atKind hσ haccess]
  by_cases hs : SharpLint.atKind j s = true
  · rw [h.secondIs hσ (by rw [beq_iff_eq.mp hs]; exact hopens) hk]
  · rw [Bool.not_eq_true] at hs
    rw [hs, Bool.false_and, Bool.false_and]

end Site

end SharpLint
