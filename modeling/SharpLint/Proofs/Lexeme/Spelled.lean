import SharpLint.Proofs.Lexeme.Attach

/-!
# Spelled tokens

No token of a text is empty but the end of the text, and a bracket `<` or `[` is spelled as such
(`spelled_ofChars`); a comment up to the end of its line starts with two slashes and has no line end.
All this holds of every piece that a step reads; inside an interpolated string it needs that the parts
of a hole stand in front of its closing brace, and that this brace is there.
-/

namespace SharpLint

/-! ## The brace of a hole is there -/

namespace Hole

theorem braceAfter?_lt {n m : Nat} {cs : List Char} (h : braceAfter? n cs = some m) :
    m < n + cs.length := by
  induction cs generalizing n with
  | nil => cases h
  | cons c cs ih =>
    rw [braceAfter?] at h
    rw [List.length_cons]
    split at h
    · obtain rfl := Option.some.inj h
      omega
    · have := ih h
      omega

theorem close_lt_scanFrom {n depth : Nat} {comma : Option Nat} {place : Place} {cs : List Char}
    {h : Hole} (hscan : scanFrom n depth comma place cs = some h) : h.close < n + cs.length := by
  induction cs generalizing n depth comma place with
  | nil => cases place <;> cases hscan
  | cons c cs ih =>
    have hnext {depth comma place} (hscan : scanFrom (n + 1) depth comma place cs = some h) :
        h.close < n + (c :: cs).length := by
      have := ih hscan
      rw [List.length_cons]
      omega
    cases place with
    | escaped q => exact hnext hscan
    | literal q =>
      rw [scanFrom] at hscan
      split at hscan
      · exact hnext hscan
      split at hscan
      · exact hnext hscan
      · exact hnext hscan
    | code =>
      rw [scanFrom] at hscan
      split at hscan
      · exact hnext hscan
      split at hscan
      · exact hnext hscan
      split at hscan
      · split at hscan
        · obtain rfl := Option.some.inj hscan
          rw [List.length_cons]
          show n < n + (cs.length + 1)
          omega
        · exact hnext hscan
      split at hscan
      · exact hnext hscan
      split at hscan
      · obtain ⟨close, hclose, rfl⟩ := Option.map_eq_some_iff.mp hscan
        exact braceAfter?_lt hclose
      split at hscan
      · exact hnext hscan
      split at hscan
      · cases hscan
      · exact hnext hscan

theorem close_lt_scan? {cs : List Char} {h : Hole} (hscan : scan? cs = some h) :
    h.close < cs.length := by
  simpa using close_lt_scanFrom hscan

end Hole

/-! ## Pieces -/

namespace Piece

/-- A token that is not empty, and has the right spelling if it opens type arguments or ranks, or
trivia that have the right spelling if they go to the end of a line. -/
def Spelled : Piece → Prop
  | .trivia t => t.FitsLine
  | .token kind text _ =>
    text ≠ "" ∧ (kind = .lt ∨ kind = .openBracket → text = String.ofList (spelling kind))

variable {c c' : Cursor} {ps : List Piece} {code : Nat → Cursor → Reading}

theorem taken_ne_empty {n : Nat} (hn : 0 < n) (hrest : c.rest ≠ []) : c.taken n ≠ "" := by
  intro hempty
  have htake : c.rest.take n = [] := by
    rw [← chars_taken, hempty]
    rfl
  rcases List.take_eq_nil_iff.mp htake with h | h
  · omega
  · exact hrest h

theorem Single.spelled (h : Single c ps c') (hrest : c.rest ≠ []) : ∀ p ∈ ps, p.Spelled := by
  obtain ⟨n, hn, ⟨kind, hline, h⟩ | ⟨kind, hk, h⟩⟩ := h
  · obtain ⟨rfl, rfl⟩ := Prod.mk.inj h
    exact fun p hp => List.mem_singleton.mp hp ▸ hline
  · obtain ⟨rfl, rfl⟩ := Prod.mk.inj h
    intro p hp
    obtain rfl := List.mem_singleton.mp hp
    refine ⟨taken_ne_empty hn hrest, fun hbracket => hk.2 ?_⟩
    rcases hbracket with rfl | rfl
    · decide
    · decide

/-- The kinds of tokens that the parts of an interpolated string make beside its code. -/
def inString : List TokenKind :=
  [.interpolatedStringStart, .interpolatedStringText, .interpolatedStringEnd, .openBrace,
   .closeBrace, .comma, .colon, .interpolatedFormatText]

theorem spelled_token (kind : TokenKind) {n : Nat} (hk : kind ∈ inString) (hn : 0 < n)
    (hrest : c.rest ≠ []) : ∀ p ∈ (c.token kind n).1, p.Spelled := by
  intro p hp
  obtain rfl := List.mem_singleton.mp hp
  refine ⟨taken_ne_empty hn hrest, fun hbracket => absurd hk ?_⟩
  rcases hbracket with rfl | rfl
  · decide
  · decide

theorem spelled_tokenIfAny (kind : TokenKind) {n : Nat} (hk : kind ∈ inString)
    (hrest : c.rest ≠ []) : ∀ p ∈ (c.tokenIfAny kind n).1, p.Spelled := by
  unfold Cursor.tokenIfAny
  split
  · exact nofun
  · exact spelled_token kind hk (by omega) hrest

theorem rest_ne_nil_advance {n : Nat} (h : n < c.rest.length) : (c.advance n).rest ≠ [] := by
  rw [Cursor.advance_rest]
  intro hnil
  have := List.drop_eq_nil_iff.mp hnil
  omega

theorem forall_append {P : Piece → Prop} {qs : List Piece} (hp : ∀ p ∈ ps, P p)
    (hq : ∀ p ∈ qs, P p) : ∀ p ∈ ps ++ qs, P p :=
  List.forall_mem_append.mpr ⟨hp, hq⟩

variable (hcode : ∀ stop c ps c', code stop c = .ok (ps, c') → ∀ p ∈ ps, p.Spelled)
include hcode

theorem spelled_hole {opener : Nat} (h : hole code opener c = .ok (ps, c')) :
    ∀ p ∈ ps, p.Spelled := by
  unfold hole at h
  split at h
  · cases h
  rename_i found hscan
  have hordered := Hole.ordered_scan? hscan
  have hclose := Hole.close_lt_scan? hscan
  obtain ⟨⟨expression, after⟩, hexpression, h⟩ := bind_eq_ok h
  obtain ⟨aligned, haligned, h⟩ := bind_eq_ok h
  obtain ⟨rfl, rfl⟩ := Prod.mk.inj (Except.ok.inj h)
  have halignment : ∀ p ∈ aligned, p.Spelled := by
    cases hcomma : found.comma with
    | none =>
      rw [hcomma] at haligned
      obtain rfl := Except.ok.inj haligned
      exact nofun
    | some k =>
      rw [hcomma] at haligned
      obtain ⟨⟨value, behind⟩, hvalue, haligned⟩ := bind_eq_ok haligned
      obtain rfl := Except.ok.inj haligned
      have hk : k < c.rest.length := Nat.lt_trans (hordered.comma_lt_close k hcomma) hclose
      exact forall_append (spelled_token _ (by decide) Nat.one_pos (rest_ne_nil_advance hk))
        (hcode _ _ _ _ hvalue)
  have hformat : ∀ p ∈ format c found.close found.colon, p.Spelled := by
    cases hcolon : found.colon with
    | none => exact nofun
    | some m =>
      have hm := hordered.colon_lt_close m hcolon
      have hsign := spelled_token .colon (n := 1) (by decide) Nat.one_pos
        (rest_ne_nil_advance (Nat.lt_trans hm hclose))
      have hbehind : ((c.advance m).advance 1).rest ≠ [] := by
        rw [Cursor.advance_advance]
        exact rest_ne_nil_advance (by omega)
      exact forall_append hsign (spelled_tokenIfAny _ (by decide) hbehind)
  have hbrace := spelled_token .closeBrace (n := 1) (by decide) Nat.one_pos
    (rest_ne_nil_advance hclose)
  exact forall_append
    (forall_append (forall_append (hcode _ _ _ _ hexpression) halignment) hformat) hbrace

theorem spelled_interpolated {verbatim : Bool} {opener fuel : Nat}
    (h : interpolated code verbatim opener fuel c = .ok (ps, c')) : ∀ p ∈ ps, p.Spelled := by
  induction fuel generalizing c ps with
  | zero => cases h
  | succ fuel ih =>
    unfold interpolated at h
    dsimp only at h
    -- a quote or a brace stands behind the text, so that something is left in front of it as well
    have htext (hbehind : (c.tokenIfAny .interpolatedStringText
        (Extent.interpolatedText verbatim c.rest)).2.rest ≠ []) :
        ∀ p ∈ (c.tokenIfAny .interpolatedStringText
          (Extent.interpolatedText verbatim c.rest)).1, p.Spelled := by
      refine spelled_tokenIfAny _ (by decide) fun hnil => hbehind ?_
      rw [tokenIfAny_snd, Cursor.advance_rest, hnil, List.drop_nil]
    split at h <;> rename_i hnext
    · obtain ⟨rfl, rfl⟩ := Prod.mk.inj (Except.ok.inj h)
      have hbehind := ne_of_eq_of_ne hnext (List.cons_ne_nil _ _)
      exact forall_append (htext hbehind) (spelled_token _ (by decide) Nat.one_pos hbehind)
    · obtain ⟨⟨inside, behind⟩, hinside, h⟩ := bind_eq_ok h
      obtain ⟨⟨others, last⟩, hothers, h⟩ := bind_eq_ok h
      obtain ⟨rfl, rfl⟩ := Prod.mk.inj (Except.ok.inj h)
      have hbehind := ne_of_eq_of_ne hnext (List.cons_ne_nil _ _)
      have hbrace := forall_append (htext hbehind)
        (spelled_token .openBrace (by decide) Nat.one_pos hbehind)
      exact forall_append (forall_append hbrace (spelled_hole hcode hinside)) (ih hothers)
    · cases h

theorem spelled_next (hrest : c.rest ≠ []) (h : next code c = .ok (ps, c')) :
    ∀ p ∈ ps, p.Spelled := by
  obtain hsingle | ⟨-, verbatim, m, hm, hstring⟩ := next_cases h hrest
  · exact hsingle.spelled hrest
  · obtain ⟨⟨parts, last⟩, hparts, hstring⟩ := bind_eq_ok hstring
    obtain ⟨rfl, rfl⟩ := Prod.mk.inj (Except.ok.inj hstring)
    exact forall_append (spelled_token _ (by decide) hm hrest) (spelled_interpolated hcode hparts)

omit hcode in
theorem spelled_upTo {fuel stop : Nat} (h : upTo fuel stop c = .ok (ps, c')) :
    ∀ p ∈ ps, p.Spelled := by
  induction fuel generalizing stop c ps c' with
  | zero =>
    obtain ⟨rfl, rfl⟩ := Prod.mk.inj (Except.ok.inj h)
    exact nofun
  | succ fuel ih =>
    unfold upTo at h
    split at h
    · obtain ⟨⟨first, mid⟩, hfirst, h⟩ := bind_eq_ok h
      obtain ⟨⟨others, last⟩, hothers, h⟩ := bind_eq_ok h
      obtain ⟨rfl, rfl⟩ := Prod.mk.inj (Except.ok.inj h)
      refine forall_append ?_ (ih hothers)
      by_cases hrest : c.rest = []
      · unfold next at hfirst
        simp only [hrest] at hfirst
        obtain ⟨rfl, rfl⟩ := Prod.mk.inj (Except.ok.inj hfirst)
        exact nofun
      · exact spelled_next (fun _ _ _ _ => ih) hrest hfirst
    · obtain ⟨rfl, rfl⟩ := Prod.mk.inj (Except.ok.inj h)
      exact nofun

end Piece

/-! ## Lexemes -/

/-- All lexemes of a text but the last have a spelled token. -/
theorem Lexeme.spelled_ofChars {cs : List Char} {ls : List Lexeme} (h : ofChars cs = .ok ls) :
    ∃ body ts, ls = body ++ [endOfText ts (byteLength cs)] ∧ ∀ l ∈ body, l.piece.Spelled := by
  obtain ⟨ps, c, rfl, hread⟩ := ofChars_eq h
  exact attach_eq (byteLength cs) (.leading []) trivial (Piece.spelled_upTo hread)

end SharpLint
