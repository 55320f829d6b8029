import SharpLint.Proofs.Lexeme.Ahead
import SharpLint.Proofs.Lexeme.Coverage

/-!
# The pieces of a text, one after the other

`Cuts rest before ps` says that behind the characters `before`, last one first, the pieces `ps` are read
by their rules, and that `rest` comes next. It splits where the pieces do (`cuts_append`), and the
characters on both sides may be exchanged:

    behind     as far as the pieces look ahead                               (Cuts.follow)
    in front   for others behind which a line starts as well, or does not    (Cuts.rebase)

A text without a `$` has the pieces that it is cut into (`Piece.ofChars_eq_ok_iff`).
-/

namespace SharpLint

/-! ## The start of a line -/

namespace Cursor

/-- A line starts behind the characters `before`, last one first, blanks aside. -/
def startsLine (before : List Char) : Bool := (⟨before, [], 0⟩ : Cursor).atLineStart

variable {before before' : List Char}

theorem startsLine_cons {c : Char} (hc : Extent.isSpace c = false) :
    startsLine (c :: before) = (c == '\n') := by
  simp [startsLine, atLineStart, hc]

/-- Blanks do not matter. -/
theorem startsLine_blank {c : Char} (hc : Extent.isSpace c = true) :
    startsLine (c :: before) = startsLine before := by
  simp [startsLine, atLineStart, hc]

theorem startsLine_append (h : startsLine before' = startsLine before) (w : List Char) :
    startsLine (w ++ before') = startsLine (w ++ before) := by
  induction w with
  | nil => exact h
  | cons c w ih =>
    cases hc : Extent.isSpace c with
    | true => rw [List.cons_append, List.cons_append, startsLine_blank hc, startsLine_blank hc, ih]
    | false => rw [List.cons_append, List.cons_append, startsLine_cons hc, startsLine_cons hc]

end Cursor

namespace Piece

open Cursor Extent

/-! ## Pieces in a row -/

/-- The piece is read in front of `rest`; `line` tells whether a line starts there. -/
def At (line : Bool) (rest : List Char) : Piece → Prop
  | .trivia t => TriviaAt line rest t.kind t.text.toList
  | .token kind text _ => TokenAt rest kind text.toList

/-- Characters that could go on with the piece. -/
def takes : Piece → Char → Bool
  | .trivia t => t.kind.takes
  | .token kind _ _ => kind.takes

inductive Cuts (rest : List Char) : List Char → List Piece → Prop
  | nil {before : List Char} : Cuts rest before []
  | cons {before : List Char} {p : Piece} {ps : List Piece} :
      p.At (startsLine before) (printed ps ++ rest) → Cuts rest (p.chars.reverse ++ before) ps →
      Cuts rest before (p :: ps)

variable {rest rest' before before' : List Char} {line line' : Bool} {p : Piece} {ps qs : List Piece}

@[simp] theorem printed_cons (p : Piece) (ps : List Piece) :
    printed (p :: ps) = p.chars ++ printed ps := rfl

theorem cuts_append : Cuts rest before (ps ++ qs) ↔
    Cuts (printed qs ++ rest) before ps ∧ Cuts rest ((printed ps).reverse ++ before) qs := by
  induction ps generalizing before with
  | nil => exact ⟨fun h => ⟨.nil, h⟩, fun h => h.2⟩
  | cons p ps ih =>
    constructor
    · rintro (_ | ⟨hp, hps⟩)
      obtain ⟨hps, hqs⟩ := ih.mp hps
      rw [List.append_eq, printed_append, List.append_assoc] at hp
      refine ⟨.cons hp hps, ?_⟩
      rwa [printed_cons, List.reverse_append, List.append_assoc]
    · rintro ⟨_ | ⟨hp, hps⟩, hqs⟩
      rw [printed_cons, List.reverse_append, List.append_assoc] at hqs
      refine .cons ?_ (ih.mpr ⟨hps, hqs⟩)
      rwa [List.append_eq, printed_append, List.append_assoc]

theorem At.ne_nil (h : p.At line rest) : p.chars ≠ [] := by
  cases p with
  | trivia t => exact TriviaAt.ne_nil h
  | token kind text offset => exact TokenAt.ne_nil h

theorem At.ends (h : p.At line rest) (hrest : Stops p.takes rest') : p.At line rest' := by
  cases p with
  | trivia t => exact TriviaAt.ends h hrest
  | token kind text offset => exact TokenAt.ends h hrest

/-- Behind a point that is a piece of its own, no digit comes. -/
theorem At.stops_of_point (h : p.At line rest) (hp : p.chars = ['.']) : Stops Char.isDigit rest := by
  cases p with
  | trivia t =>
    obtain ⟨kind, text⟩ := t
    have h : TriviaAt line rest kind ['.'] := hp ▸ h
    generalize hw : ['.'] = w at h
    cases h with
    | blank _ hall _ => cases hall '.' (hw ▸ List.mem_cons_self)
    | _ => cases hw
  | token kind text offset =>
    have h : TokenAt rest kind ['.'] := hp ▸ h
    generalize hw : ['.'] = w at h
    cases h with
    | number hfirst _ =>
      obtain ⟨rfl, rfl⟩ := List.cons.inj hw
      rcases hfirst with h | ⟨-, h⟩ <;> cases h
    | name hc _ _ =>
      obtain ⟨rfl, rfl⟩ := List.cons.inj hw
      cases hc
    | punctuation hfound halone =>
      have hkind : kind = .dot := by
        have hall : ∀ k ∈ punctuation, ['.'] = spelling k → k = .dot := by decide
        exact hall kind (List.mem_of_find?_eq_some hfound) hw
      exact halone.dot hkind
    | _ => cases hw

theorem At.beyond {v : List Char} (h : p.At line (v ++ rest)) (hv : v ≠ [])
    (hrest : Stops isDigitOrSign rest') (hpoint : v = ['.'] → Stops Char.isDigit rest) :
    p.At line (v ++ rest') := by
  cases p with
  | trivia t => exact TriviaAt.beyond h hv
  | token kind text offset => exact TokenAt.beyond h hv hrest hpoint

theorem At.anywhere (h : p.At line rest) (hp : p.chars.head? ≠ some '#') : p.At line' rest := by
  cases p with
  | trivia t => exact TriviaAt.anywhere h hp
  | token kind text offset => exact h

theorem Cuts.printed_ne_nil (h : Cuts rest before ps) (hps : ps ≠ []) : printed ps ≠ [] := by
  cases h with
  | nil => exact absurd rfl hps
  | cons hp _ => exact List.append_ne_nil_of_left_ne_nil hp.ne_nil _

/-- Other text may come next, if it starts with neither a digit nor a sign and cannot go on with the last
piece. -/
theorem Cuts.follow (h : Cuts rest before ps) (hrest : Stops isDigitOrSign rest')
    (hlast : ∀ p ∈ ps.getLast?, Stops p.takes rest') : Cuts rest' before ps := by
  induction h with
  | nil => exact .nil
  | @cons before p ps hp hps ih =>
    cases ps with
    | nil => exact .cons (hp.ends (hlast p rfl)) .nil
    | cons q qs =>
      refine .cons (hp.beyond (hps.printed_ne_nil (List.cons_ne_nil _ _)) hrest fun hpoint => ?_)
        (ih fun r hr => hlast r (by rwa [List.getLast?_cons_cons]))
      cases hps with
      | cons hq hqs =>
        obtain ⟨c, cs, hc⟩ := List.exists_cons_of_ne_nil hq.ne_nil
        rw [printed_cons, hc] at hpoint
        obtain ⟨rfl, hnil⟩ := List.cons.inj hpoint
        obtain ⟨rfl, hqs'⟩ := List.append_eq_nil_iff.mp hnil
        rw [hqs'] at hq
        exact hq.stops_of_point hc

theorem Cuts.rebase (h : Cuts rest before ps) (hline : startsLine before' = startsLine before) :
    Cuts rest before' ps := by
  induction h generalizing before' with
  | nil => exact .nil
  | cons hp _ ih => exact .cons (hline ▸ hp) (ih (startsLine_append hline _))

/-- Where the first character is no blank and starts no directive, anything may stand in front. -/
theorem Cuts.rebase_of_ink (h : Cuts rest before ps)
    (hps : ∀ c ∈ (printed ps).head?, isSpace c = false ∧ c ≠ '#') : Cuts rest before' ps := by
  cases h with
  | nil => exact .nil
  | @cons _ p ps hp hrest =>
    obtain ⟨c, cs, hc⟩ := List.exists_cons_of_ne_nil hp.ne_nil
    obtain ⟨hspace, hhash⟩ := hps c (by rw [printed_cons, hc]; rfl)
    refine .cons (hp.anywhere (by rw [hc]; simpa using hhash)) (hrest.rebase ?_)
    rw [hc, List.reverse_cons, List.append_assoc, List.append_assoc]
    refine startsLine_append ?_ _
    rw [List.singleton_append, List.singleton_append, startsLine_cons hspace, startsLine_cons hspace]

/-! ## Texts -/

/-- The piece at another offset. -/
def movedTo (offset : Nat) : Piece → Piece
  | .trivia t => .trivia t
  | .token kind text _ => .token kind text offset

/-- The pieces with their offsets, where the first one stands at the given offset. -/
def place : Nat → List Piece → List Piece
  | _, [] => []
  | offset, p :: ps => p.movedTo offset :: place (offset + byteLength p.chars) ps

variable {code : Nat → Cursor → Reading} {c c' : Cursor}

theorem next_of_at (h : p.At c.atLineStart rest) (hrest : c.rest = p.chars ++ rest) :
    next code c = .ok ([p.movedTo c.offset], c.advance p.chars.length) := by
  cases p with
  | trivia t =>
    have htaken : c.taken t.text.toList.length = String.ofList t.text.toList := taken_eq hrest
    rw [next_of_triviaAt h hrest, Cursor.trivia, htaken, String.ofList_toList]
    rfl
  | token kind text offset =>
    have htaken : c.taken text.toList.length = String.ofList text.toList := taken_eq hrest
    rw [next_of_tokenAt h hrest, Cursor.token, htaken, String.ofList_toList]
    rfl

theorem exists_at (hdollar : '$' ∉ c.rest) (hrest : c.rest ≠ []) (h : next code c = .ok (ps, c')) :
    ∃ (p : Piece) (rest : List Char), c.rest = p.chars ++ rest ∧ p.At c.atLineStart rest ∧
      ps = [p.movedTo c.offset] ∧ c' = c.advance p.chars.length := by
  obtain ⟨w, rest, hsplit, ⟨kind, hrule, h⟩ | ⟨kind, hrule, h⟩⟩ := exists_rule hdollar hrest h
  · obtain ⟨rfl, rfl⟩ := Prod.mk.inj h
    have hchars : (Piece.trivia ⟨kind, String.ofList w⟩).chars = w := String.toList_ofList
    refine ⟨.trivia ⟨kind, String.ofList w⟩, rest, by rw [hchars, hsplit], ?_, ?_, by rw [hchars]⟩
    · show TriviaAt c.atLineStart rest kind (String.ofList w).toList
      rwa [String.toList_ofList]
    · rw [taken_eq hsplit]
      rfl
  · obtain ⟨rfl, rfl⟩ := Prod.mk.inj h
    have hchars : (Piece.token kind (String.ofList w) 0).chars = w := String.toList_ofList
    refine ⟨.token kind (String.ofList w) 0, rest, by rw [hchars, hsplit], ?_, ?_, by rw [hchars]⟩
    · show TokenAt rest kind (String.ofList w).toList
      rwa [String.toList_ofList]
    · rw [taken_eq hsplit]
      rfl

theorem before_advance (hrest : c.rest = p.chars ++ rest) :
    (c.advance p.chars.length).before = p.chars.reverse ++ c.before ∧
      (c.advance p.chars.length).rest = rest ∧
      (c.advance p.chars.length).offset = c.offset + byteLength p.chars := by
  rw [Cursor.advance_eq, hrest, List.take_left, List.drop_left]
  exact ⟨rfl, rfl, rfl⟩

theorem byteLength_pos {w : List Char} (hw : w ≠ []) : 0 < byteLength w := by
  obtain ⟨d, ds, rfl⟩ := List.exists_cons_of_ne_nil hw
  have := d.utf8Size_pos
  rw [byteLength_cons]
  omega

theorem upTo_of_cuts {fuel : Nat} (h : Cuts [] c.before ps) (hrest : c.rest = printed ps)
    (hfuel : c.rest.length < fuel) :
    ∃ c', upTo fuel (c.offset + byteLength c.rest) c = .ok (place c.offset ps, c') := by
  induction fuel generalizing c ps with
  | zero => exact absurd hfuel (Nat.not_lt_zero _)
  | succ fuel ih =>
    cases h with
    | nil =>
      rw [hrest, upTo, if_neg (by simp [printed])]
      exact ⟨c, rfl⟩
    | @cons _ p ps hp hps =>
      rw [List.append_nil] at hp
      have hsplit : c.rest = p.chars ++ printed ps := hrest
      have hread : next (upTo fuel) c = .ok ([p.movedTo c.offset], c.advance p.chars.length) :=
        next_of_at hp hsplit
      obtain ⟨hbefore, hbehind, hoffset⟩ := before_advance hsplit
      have hlength := List.length_pos_iff.mpr hp.ne_nil
      have hbytes := byteLength_pos hp.ne_nil
      have hstop : c.offset + byteLength c.rest =
          (c.advance p.chars.length).offset + byteLength (c.advance p.chars.length).rest := by
        rw [hoffset, hbehind, hsplit, byteLength_append]
        omega
      have hlt : c.offset < c.offset + byteLength c.rest := by
        rw [hsplit, byteLength_append]
        omega
      obtain ⟨c', hc'⟩ := ih (c := c.advance p.chars.length) (hbefore ▸ hps) hbehind (by
        rw [hsplit, List.length_append] at hfuel
        rw [hbehind]
        omega)
      refine ⟨c', ?_⟩
      rw [upTo, if_pos hlt, hread, hstop]
      show (upTo fuel _ _ >>= fun read => _) = _
      rw [hc', hoffset]
      rfl

theorem cuts_of_upTo {fuel : Nat} (hdollar : '$' ∉ c.rest) (hfuel : c.rest.length < fuel)
    (h : upTo fuel (c.offset + byteLength c.rest) c = .ok (ps, c')) :
    ∃ qs, Cuts [] c.before qs ∧ c.rest = printed qs ∧ ps = place c.offset qs := by
  induction fuel generalizing c ps with
  | zero => exact absurd hfuel (Nat.not_lt_zero _)
  | succ fuel ih =>
    by_cases hnil : c.rest = []
    · rw [upTo, if_neg (by simp [hnil])] at h
      obtain ⟨rfl, -⟩ := Prod.mk.inj (Except.ok.inj h)
      exact ⟨[], .nil, hnil, rfl⟩
    · have hbytes := byteLength_pos hnil
      rw [upTo, if_pos (by omega)] at h
      obtain ⟨⟨first, mid⟩, hfirst, h⟩ := bind_eq_ok h
      obtain ⟨⟨others, last⟩, hothers, h⟩ := bind_eq_ok h
      obtain ⟨rfl, rfl⟩ := Prod.mk.inj (Except.ok.inj h)
      obtain ⟨p, rest, hsplit, hp, rfl, rfl⟩ := exists_at hdollar hnil hfirst
      obtain ⟨hbefore, hbehind, hoffset⟩ := before_advance hsplit
      have hlength := List.length_pos_iff.mpr hp.ne_nil
      have hstop : c.offset + byteLength c.rest =
          (c.advance p.chars.length).offset + byteLength (c.advance p.chars.length).rest := by
        rw [hoffset, hbehind, hsplit, byteLength_append]
        omega
      rw [hstop] at hothers
      obtain ⟨qs, hqs, hprinted, rfl⟩ := ih (by
          rw [hbehind]
          exact fun hmem => hdollar (hsplit ▸ List.mem_append_right _ hmem))
        (by rw [hsplit, List.length_append] at hfuel; rw [hbehind]; omega) hothers
      rw [hbehind] at hprinted
      rw [hprinted] at hsplit hp
      refine ⟨p :: qs, .cons (by rwa [List.append_nil]) (hbefore ▸ hqs), hsplit, ?_⟩
      rw [hoffset]
      rfl

theorem ofChars_of_cuts (h : Cuts [] [] ps) : ofChars (printed ps) = .ok (place 0 ps) := by
  obtain ⟨c', hc'⟩ := upTo_of_cuts (c := .ofChars (printed ps)) h rfl (Nat.lt_succ_self _)
  have hstop : (Cursor.ofChars (printed ps)).offset + byteLength (Cursor.ofChars (printed ps)).rest =
      byteLength (printed ps) := Nat.zero_add _
  rw [hstop] at hc'
  have hread : upTo ((printed ps).length + 1) (byteLength (printed ps)) (.ofChars (printed ps)) =
      .ok (place 0 ps, c') := hc'
  rw [ofChars, hread]
  rfl

/-- Without a `$` a text is cut into its pieces. -/
theorem cuts_of_ofChars {cs : List Char} (hdollar : '$' ∉ cs) (h : ofChars cs = .ok ps) :
    ∃ qs, Cuts [] [] qs ∧ cs = printed qs ∧ ps = place 0 qs := by
  obtain ⟨⟨read, last⟩, hread, h⟩ := bind_eq_ok h
  obtain rfl := Except.ok.inj h
  have hstop : (Cursor.ofChars cs).offset + byteLength (Cursor.ofChars cs).rest = byteLength cs :=
    Nat.zero_add _
  rw [← hstop] at hread
  exact cuts_of_upTo (c := .ofChars cs) hdollar (Nat.lt_succ_self _) hread

end Piece

end SharpLint
