import SharpLint.Lexeme.Attach
import SharpLint.Proofs.Lexeme.Step

/-!
# The lexemes of a text hold all of it

Reading pieces up to an offset covers the text up to there, holes included, by induction on the fuel
(`code_upTo`). The fuel is enough because every step goes forward: what is left to read inside a
hole or behind a step is shorter than what was left before it.
-/

namespace SharpLint

theorem bind_eq_ok {ε α β : Type} {x : Except ε α} {f : α → Except ε β} {b : β}
    (h : (x >>= f) = .ok b) : ∃ a, x = .ok a ∧ f a = .ok b := by
  cases x with
  | error e => cases h
  | ok a => exact ⟨a, rfl, h⟩

/-! ## The parts of a hole -/

namespace Hole

theorem le_braceAfter? {n m : Nat} {cs : List Char} (h : braceAfter? n cs = some m) : n ≤ m := by
  induction cs generalizing n with
  | nil => cases h
  | cons c cs ih =>
    rw [braceAfter?] at h
    split at h
    · exact Nat.le_of_eq (Option.some.inj h)
    · exact Nat.le_of_succ_le (ih h)

/-- The comma stands before the colon, and both stand before the brace. -/
structure Ordered (h : Hole) : Prop where
  comma_lt_close : ∀ k ∈ h.comma, k < h.close
  comma_lt_colon : ∀ k ∈ h.comma, ∀ m ∈ h.colon, k < m
  colon_lt_close : ∀ m ∈ h.colon, m < h.close

theorem ordered_scanFrom {n depth : Nat} {comma : Option Nat} {place : Place} {cs : List Char}
    {h : Hole} (hcomma : ∀ k ∈ comma, k < n) (hscan : scanFrom n depth comma place cs = some h) :
    h.Ordered := by
  have hnext : ∀ k ∈ comma, k < n + 1 := fun k hk => Nat.lt_succ_of_lt (hcomma k hk)
  induction cs generalizing n depth comma place with
  | nil => cases place <;> cases hscan
  | cons c cs ih =>
    have ih {depth comma place} (hcomma : ∀ k ∈ comma, k < n + 1)
        (hscan : scanFrom (n + 1) depth comma place cs = some h) : h.Ordered :=
      ih hcomma hscan fun k hk => Nat.lt_succ_of_lt (hcomma k hk)
    cases place with
    | escaped q => exact ih hnext hscan
    | literal q =>
      rw [scanFrom] at hscan
      split at hscan
      · exact ih hnext hscan
      split at hscan
      · exact ih hnext hscan
      · exact ih hnext hscan
    | code =>
      rw [scanFrom] at hscan
      split at hscan
      · exact ih hnext hscan
      split at hscan
      · exact ih hnext hscan
      split at hscan
      · split at hscan
        · obtain rfl := Option.some.inj hscan
          exact ⟨hcomma, nofun, nofun⟩
        · exact ih hnext hscan
      split at hscan
      · refine ih (fun k hk => ?_) hscan
        obtain rfl : n = k := by simpa using hk
        exact Nat.lt_succ_self n
      split at hscan
      · rename_i hbrace _ _
        obtain ⟨close, hclose, rfl⟩ := Option.map_eq_some_iff.mp hscan
        rw [braceAfter?, if_neg hbrace] at hclose
        have hlt : n < close := le_braceAfter? hclose
        refine ⟨fun k hk => Nat.lt_trans (hcomma k hk) hlt, fun k hk m hm => ?_, fun m hm => ?_⟩
        · obtain rfl : n = m := by simpa using hm
          exact hcomma k hk
        · obtain rfl : n = m := by simpa using hm
          exact hlt
      split at hscan
      · exact ih hnext hscan
      split at hscan
      · cases hscan
      · exact ih hnext hscan

theorem ordered_scan? {cs : List Char} {h : Hole} (hscan : scan? cs = some h) : h.Ordered :=
  ordered_scanFrom (by simp) hscan

end Hole

/-! ## Holes and interpolated strings -/

namespace Piece

/-- Reading code up to an offset covers the text and reaches the offset, with fewer than `n`
characters left. -/
def Code (cs : List Char) (n : Nat) (code : Nat → Cursor → Reading) : Prop :=
  ∀ stop c ps c', c.In cs → c.rest.length < n → stop ≤ byteLength cs → code stop c = .ok (ps, c') →
    Covers cs c ps c' ∧ stop ≤ c'.offset

variable {cs : List Char} {c c' : Cursor} {ps : List Piece} {n : Nat}
  {code : Nat → Cursor → Reading}

/-- The code between a place and a later one. -/
theorem Code.upTo (hcode : Code cs n code) {b : Cursor} (hc : c.In cs) (hn : c.rest.length < n)
    (hb : b.In cs) (hforward : b.rest.length ≤ c.rest.length)
    (h : code b.offset c = .ok (ps, c')) : Covers cs c ps b := by
  have hstop : b.offset ≤ byteLength cs := by
    have := hb.offset_add
    omega
  obtain ⟨hcovers, hreached⟩ := hcode _ _ _ _ hc hn hstop h
  exact hcovers.back hb hforward hreached

theorem covers_alignment (hcode : Code cs n code) (hc : c.In cs) (hn : c.rest.length < n)
    {comma : Option Nat} {stop : Nat} (hlt : ∀ k ∈ comma, k < stop)
    (h : alignment code (c.advance stop).offset (comma.map c.advance) = .ok ps) :
    Covers cs ((comma.map c.advance).getD (c.advance stop)) ps (c.advance stop) := by
  cases comma with
  | none =>
    obtain rfl := Except.ok.inj h
    exact .refl (hc.advance stop)
  | some k =>
    have hk : k < stop := hlt k rfl
    obtain ⟨⟨value, after⟩, hvalue, h⟩ := bind_eq_ok h
    obtain rfl := Except.ok.inj h
    have hsign := covers_token (hc.advance k) .comma 1 nofun
    refine hsign.trans (hcode.upTo hsign.inside ?_ (hc.advance stop) ?_ hvalue)
    · show ((c.advance k).advance 1).rest.length < n
      simp only [Cursor.advance_rest, List.length_drop]
      omega
    · show (c.advance stop).rest.length ≤ ((c.advance k).advance 1).rest.length
      simp only [Cursor.advance_rest, List.length_drop]
      omega

theorem covers_format (hc : c.In cs) {colon : Option Nat} {close : Nat}
    (hlt : ∀ m ∈ colon, m < close) :
    Covers cs ((colon.map c.advance).getD (c.advance close)) (format c close colon)
      (c.advance close) := by
  cases colon with
  | none => exact .refl (hc.advance close)
  | some m =>
    have hm : m < close := hlt m rfl
    have hsign := covers_token (hc.advance m) .colon 1 nofun
    have htext := covers_tokenIfAny hsign.inside .interpolatedFormatText (close - (m + 1)) nofun
    have hclose : ((c.advance m).advance 1).advance (close - (m + 1)) = c.advance close := by
      rw [Cursor.advance_advance, Cursor.advance_advance]
      congr 1
      omega
    rw [tokenIfAny_snd] at htext
    exact hclose ▸ hsign.trans htext

/-- A hole is covered, though its code may run past the places where its parts end. -/
theorem covers_hole (hcode : Code cs n code) {opener : Nat} (hc : c.In cs)
    (hn : c.rest.length < n) (h : hole code opener c = .ok (ps, c')) : Covers cs c ps c' := by
  unfold hole at h
  split at h
  · cases h
  rename_i found hscan
  have hordered := Hole.ordered_scan? hscan
  obtain ⟨⟨expression, after⟩, hexpression, h⟩ := bind_eq_ok h
  obtain ⟨aligned, haligned, h⟩ := bind_eq_ok h
  obtain ⟨rfl, rfl⟩ := Prod.mk.inj (Except.ok.inj h)
  -- the alignment ends at the colon, or at the brace where there is none
  obtain ⟨stop, hstop, hlt⟩ : ∃ stop, (found.colon.map c.advance).getD (c.advance found.close) =
      c.advance stop ∧ ∀ k ∈ found.comma, k < stop := by
    cases hcolon : found.colon with
    | none => exact ⟨found.close, rfl, hordered.comma_lt_close⟩
    | some m => exact ⟨m, rfl, fun k hk => hordered.comma_lt_colon k hk m hcolon⟩
  have hformat := covers_format hc hordered.colon_lt_close
  rw [hstop] at hexpression haligned hformat
  have halignment := covers_alignment hcode hc hn hlt haligned
  have hend : ∃ k, (found.comma.map c.advance).getD (c.advance stop) = c.advance k := by
    cases found.comma with
    | none => exact ⟨stop, rfl⟩
    | some k => exact ⟨k, rfl⟩
  obtain ⟨k, hk⟩ := hend
  rw [hk] at hexpression halignment
  have hcode' := hcode.upTo hc hn (hc.advance k) (by simp) hexpression
  have hbrace := covers_token (hc.advance found.close) .closeBrace 1 nofun
  exact ((hcode'.trans halignment).trans hformat).trans hbrace

theorem covers_interpolated (hcode : Code cs n code) {verbatim : Bool} {opener fuel : Nat}
    (hc : c.In cs) (hn : c.rest.length < n)
    (h : interpolated code verbatim opener fuel c = .ok (ps, c')) : Covers cs c ps c' := by
  induction fuel generalizing c ps with
  | zero => cases h
  | succ fuel ih =>
    have htext := covers_tokenIfAny hc .interpolatedStringText
      (Extent.interpolatedText verbatim c.rest) nofun
    unfold interpolated at h
    dsimp only at h
    split at h
    · obtain ⟨rfl, rfl⟩ := Prod.mk.inj (Except.ok.inj h)
      exact htext.trans (covers_token htext.inside .interpolatedStringEnd 1 nofun)
    · obtain ⟨⟨inside, behind⟩, hinside, h⟩ := bind_eq_ok h
      obtain ⟨⟨others, last⟩, hothers, h⟩ := bind_eq_ok h
      obtain ⟨rfl, rfl⟩ := Prod.mk.inj (Except.ok.inj h)
      have hbrace := htext.trans (covers_token htext.inside .openBrace 1 nofun)
      have hhole := hbrace.trans
        (covers_hole hcode hbrace.inside (Nat.lt_of_le_of_lt hbrace.forward hn) hinside)
      exact hhole.trans (ih hhole.inside (Nat.lt_of_le_of_lt hhole.forward hn) hothers)
    · cases h

theorem covers_interpolatedString (hcode : Code cs n code) {verbatim : Bool} {m : Nat}
    (hm : 0 < m) (hc : c.In cs) (hrest : c.rest ≠ []) (hn : c.rest.length ≤ n)
    (h : interpolatedString code verbatim m c = .ok (ps, c')) :
    Covers cs c ps c' ∧ c'.rest.length < c.rest.length := by
  obtain ⟨⟨parts, last⟩, hparts, h⟩ := bind_eq_ok h
  obtain ⟨rfl, rfl⟩ := Prod.mk.inj (Except.ok.inj h)
  have hopener := covers_token hc .interpolatedStringStart m nofun
  have hshorter : (c.token .interpolatedStringStart m).2.rest.length < c.rest.length := by
    show (c.advance m).rest.length < c.rest.length
    have := List.length_pos_iff.mpr hrest
    simp only [Cursor.advance_rest, List.length_drop]
    omega
  have hinside := covers_interpolated hcode hopener.inside (Nat.lt_of_lt_of_le hshorter hn) hparts
  exact ⟨hopener.trans hinside, Nat.lt_of_le_of_lt hinside.forward hshorter⟩

/-! ## Whole texts -/

theorem covers_next (hcode : Code cs n code) (hc : c.In cs) (hrest : c.rest ≠ [])
    (hn : c.rest.length ≤ n) (h : next code c = .ok (ps, c')) :
    Covers cs c ps c' ∧ c'.rest.length < c.rest.length := by
  obtain hsingle | ⟨-, verbatim, m, hm, hstring⟩ := next_cases h hrest
  · exact ⟨hsingle.covers hc, hsingle.rest_eq.2 hrest⟩
  · exact covers_interpolatedString hcode hm hc hrest hn hstring

/-- Fuel for the characters that are left is enough. -/
theorem code_upTo (cs : List Char) (fuel : Nat) : Code cs fuel (upTo fuel) := by
  induction fuel with
  | zero => exact fun _ c _ _ _ hn => absurd hn (Nat.not_lt_zero _)
  | succ fuel ih =>
    intro stop c ps c' hc hn hstop h
    unfold upTo at h
    split at h
    · rename_i hlt
      obtain ⟨⟨first, mid⟩, hfirst, h⟩ := bind_eq_ok h
      obtain ⟨⟨others, last⟩, hothers, h⟩ := bind_eq_ok h
      obtain ⟨rfl, rfl⟩ := Prod.mk.inj (Except.ok.inj h)
      have hrest : c.rest ≠ [] := hc.rest_ne_nil (by omega)
      obtain ⟨hstep, hshorter⟩ := covers_next ih hc hrest (by omega) hfirst
      obtain ⟨hloop, hreached⟩ := ih stop mid others last hstep.inside (by omega) hstop hothers
      exact ⟨hstep.trans hloop, hreached⟩
    · obtain ⟨rfl, rfl⟩ := Prod.mk.inj (Except.ok.inj h)
      exact ⟨.refl hc, by omega⟩

/-- Without a `$` no step goes back, so that the pieces are the text up to where reading ends. -/
theorem printed_upTo {fuel stop : Nat} (hdollar : '$' ∉ c.rest)
    (h : upTo fuel stop c = .ok (ps, c')) : c.rest = printed ps ++ c'.rest := by
  induction fuel generalizing c ps with
  | zero =>
    obtain ⟨rfl, rfl⟩ := Prod.mk.inj (Except.ok.inj h)
    rfl
  | succ fuel ih =>
    unfold upTo at h
    split at h
    · obtain ⟨⟨first, mid⟩, hfirst, h⟩ := bind_eq_ok h
      obtain ⟨⟨others, last⟩, hothers, h⟩ := bind_eq_ok h
      obtain ⟨rfl, rfl⟩ := Prod.mk.inj (Except.ok.inj h)
      have hstep : c.rest = printed first ++ mid.rest := by
        by_cases hrest : c.rest = []
        · unfold next at hfirst
          simp only [hrest] at hfirst
          obtain ⟨rfl, rfl⟩ := Prod.mk.inj (Except.ok.inj hfirst)
          rfl
        · obtain hsingle | ⟨hmem, -⟩ := next_cases hfirst hrest
          · exact hsingle.rest_eq.1
          · exact absurd hmem hdollar
      have hdollar' : '$' ∉ mid.rest := fun hmem => hdollar (by simp [hstep, hmem])
      rw [hstep, ih hdollar' hothers, printed_append, List.append_assoc]
    · obtain ⟨rfl, rfl⟩ := Prod.mk.inj (Except.ok.inj h)
      rfl

end Piece

end SharpLint
