import SharpLint.Proofs.Grammar.Site
import SharpLint.Proofs.Lexeme.Attached
import SharpLint.Proofs.Lexeme.Cut

/-!
# Tokens that a text is read into

The tokens of a text, with their trivia, are known without the text: they are arranged as attachment does
it, and their pieces follow each other by the rules (`Cut`). Such tokens are what reading their own
characters gives, and without a `$` there are no others:

    Lexeme.ofChars (characters of tokens) = .ok (place 0 tokens)       (ofChars_of_cut, exists_cut)

What stands behind a place is the same wherever that place is (`same_place`).
-/

namespace SharpLint

/-! ## Tokens and pieces -/

namespace Token

/-- The pieces of a token with its trivia, in order. -/
def pieces (t : Token) : List Piece :=
  t.leading.map .trivia ++ .token t.kind t.text 0 :: t.trailing.map .trivia

/-- The end of a text, with the trivia in front of it. -/
def endOfText (ts : List Trivia) : Token := ⟨.endOfFile, "", ts, []⟩

theorem printed_trivia (ts : List Trivia) : Piece.printed (ts.map .trivia) = Trivia.chars ts := by
  rw [Piece.printed, List.flatMap_map]
  rfl

theorem printed_pieces (t : Token) : Piece.printed t.pieces = t.fullChars := by
  rw [pieces, Piece.printed_append, Piece.printed_cons, printed_trivia, printed_trivia, fullChars,
    List.append_assoc]
  rfl

theorem printed_flatMap_pieces (ts : List Token) :
    Piece.printed (ts.flatMap pieces) = ts.flatMap fullChars := by
  rw [Piece.printed, List.flatMap_assoc]
  exact List.flatMap_congr fun t _ => t.printed_pieces

/-- The second token leads with trivia only if the first one closes its line. -/
def Adjoins (a b : Token) : Prop := b.leading ≠ [] → Lexeme.ClosesLine a.trailing

/-- Tokens and, in front of the end, trivia that a text is read into behind the characters `before`,
last one first. -/
structure Cut (before : List Char) (body : List Token) (ts : List Trivia) : Prop where
  kinds : ∀ t ∈ body, t.kind ≠ .endOfFile
  trailing : ∀ t ∈ body, Lexeme.OnLine t.trailing
  leading : (body ++ [endOfText ts]).IsChain Adjoins
  cuts : Piece.Cuts [] before (body.flatMap pieces ++ ts.map .trivia)

namespace Cut

variable {before before' : List Char} {front body : List Token} {ts : List Trivia}

theorem behind (h : Cut before (front ++ body) ts) :
    Cut ((front.flatMap fullChars).reverse ++ before) body ts where
  kinds t ht := h.kinds t (List.mem_append_right _ ht)
  trailing t ht := h.trailing t (List.mem_append_right _ ht)
  leading := by
    have hleading := h.leading
    rw [List.append_assoc] at hleading
    exact (List.isChain_append.mp hleading).2.1
  cuts := by
    have hcuts := h.cuts
    rw [List.flatMap_append, List.append_assoc] at hcuts
    rw [← printed_flatMap_pieces]
    exact (Piece.cuts_append.mp hcuts).2

theorem rebase (h : Cut before body ts)
    (hline : Cursor.startsLine before' = Cursor.startsLine before) : Cut before' body ts :=
  { h with cuts := h.cuts.rebase hline }

end Cut

end Token

/-! ## Offsets -/

namespace Lexeme

/-- The tokens with their offsets, where the trivia of the first one start at the given offset. -/
def place : Nat → List Token → List Lexeme
  | _, [] => []
  | offset, t :: ts =>
    ⟨t, offset + byteLength (Trivia.chars t.leading)⟩ :: place (offset + byteLength t.fullChars) ts

@[simp] theorem map_token_place (offset : Nat) (ts : List Token) :
    (place offset ts).map Lexeme.token = ts := by
  induction ts generalizing offset with
  | nil => rfl
  | cons t ts ih => rw [place, List.map_cons, ih]

theorem place_append (offset : Nat) (ts us : List Token) : place offset (ts ++ us) =
    place offset ts ++ place (offset + byteLength (ts.flatMap Token.fullChars)) us := by
  induction ts generalizing offset with
  | nil => rfl
  | cons t ts ih =>
    rw [List.cons_append, place, place, ih, List.cons_append, List.flatMap_cons, byteLength_append,
      Nat.add_assoc]

end Lexeme

namespace Piece

theorem place_append (offset : Nat) (ps qs : List Piece) : place offset (ps ++ qs) =
    place offset ps ++ place (offset + byteLength (printed ps)) qs := by
  induction ps generalizing offset with
  | nil => rfl
  | cons p ps ih =>
    rw [List.cons_append, place, place, ih, List.cons_append, printed_cons, byteLength_append,
      Nat.add_assoc]

theorem place_trivia (offset : Nat) (ts : List Trivia) :
    place offset (ts.map .trivia) = ts.map .trivia := by
  induction ts generalizing offset with
  | nil => rfl
  | cons t ts ih =>
    rw [List.map_cons, place, ih]
    rfl

theorem movedTo_place (offset : Nat) (ps : List Piece) :
    (place offset ps).map (movedTo 0) = ps.map (movedTo 0) := by
  induction ps generalizing offset with
  | nil => rfl
  | cons p ps ih =>
    rw [place, List.map_cons, List.map_cons, ih]
    cases p <;> rfl

theorem Cuts.movedTo {rest before : List Char} {ps : List Piece} (h : Cuts rest before ps)
    (offset : Nat) : Cuts rest before (ps.map (movedTo offset)) := by
  have hchars (p : Piece) : (p.movedTo offset).chars = p.chars := by cases p <;> rfl
  induction h with
  | nil => exact .nil
  | @cons before p ps hp _ ih =>
    refine .cons ?_ ((hchars p).symm ▸ ih)
    have hprinted : printed (ps.map (Piece.movedTo offset)) = printed ps := by
      rw [printed, List.flatMap_map]
      exact List.flatMap_congr fun q _ => hchars q
    rw [hprinted]
    cases p <;> exact hp

end Piece

namespace Lexeme

theorem pieces_place (offset : Nat) (t : Token) :
    (⟨t, offset + byteLength (Trivia.chars t.leading)⟩ : Lexeme).pieces =
      Piece.place offset t.pieces := by
  rw [Token.pieces, Piece.place_append, Piece.place_trivia, Piece.place, Piece.place_trivia,
    Token.printed_trivia]
  rfl

theorem flatMap_pieces_place (offset : Nat) (ts : List Token) :
    (place offset ts).flatMap pieces = Piece.place offset (ts.flatMap Token.pieces) := by
  induction ts generalizing offset with
  | nil => rfl
  | cons t ts ih =>
    rw [place, List.flatMap_cons, ih, pieces_place, List.flatMap_cons, Piece.place_append,
      Token.printed_pieces]

end Lexeme

/-! ## Reading -/

namespace Token

variable {body : List Token} {ts : List Trivia}

theorem attached_of_cut (h : Cut [] body ts) :
    Lexeme.Attached (byteLength ((body ++ [endOfText ts]).flatMap fullChars))
      (Piece.place 0 (body.flatMap pieces ++ ts.map .trivia))
      (Lexeme.place 0 (body ++ [endOfText ts])) where
  trailing l hl := by
    have hmem : l.token ∈ body ++ [endOfText ts] :=
      Lexeme.map_token_place 0 (body ++ [endOfText ts]) ▸ List.mem_map_of_mem hl
    rcases List.mem_append.mp hmem with hbody | hend
    · exact h.trailing _ hbody
    · rw [List.mem_singleton.mp hend]
      exact nofun
  leading := by
    have hchain : ((Lexeme.place 0 (body ++ [endOfText ts])).map Lexeme.token).IsChain Adjoins := by
      rw [Lexeme.map_token_place]
      exact h.leading
    exact (List.isChain_map Lexeme.token).mp hchain
  last := by
    refine ⟨Lexeme.place 0 body, ts, ?_, fun l hl => ?_⟩
    · rw [Lexeme.place_append, Lexeme.place, Lexeme.place, List.flatMap_append, byteLength_append,
        Nat.zero_add]
      simp [Lexeme.endOfText, endOfText, fullChars, Trivia.chars]
    · have hmem : l.token ∈ (Lexeme.place 0 body).map Lexeme.token := List.mem_map_of_mem hl
      rw [Lexeme.map_token_place] at hmem
      exact h.kinds _ hmem
  pieces := by
    have hend : (endOfText ts).pieces = ts.map .trivia ++ [.token .endOfFile "" 0] := rfl
    rw [Lexeme.flatMap_pieces_place, List.flatMap_append, List.flatMap_singleton, hend,
      ← List.append_assoc, Piece.place_append, Piece.printed_append, printed_flatMap_pieces,
      printed_trivia, List.flatMap_append, List.flatMap_singleton, Nat.zero_add]
    simp [Piece.place, Piece.movedTo, endOfText, fullChars, Trivia.chars]

theorem printed_cut (body : List Token) (ts : List Trivia) :
    Piece.printed (body.flatMap pieces ++ ts.map .trivia) =
      (body ++ [endOfText ts]).flatMap fullChars := by
  rw [Piece.printed_append, printed_flatMap_pieces, printed_trivia, List.flatMap_append,
    List.flatMap_singleton]
  simp [endOfText, fullChars, Trivia.chars]

/-- The characters of tokens that fit each other are read into these tokens. -/
theorem ofChars_of_cut (h : Cut [] body ts) :
    Lexeme.ofChars ((body ++ [endOfText ts]).flatMap fullChars) =
      .ok (Lexeme.place 0 (body ++ [endOfText ts])) := by
  rw [Lexeme.ofChars_eq_ok_iff]
  refine ⟨_, ?_, attached_of_cut h⟩
  rw [← printed_cut]
  exact Piece.ofChars_of_cuts h.cuts

/-- Without a `$`, what a text is read into are tokens that fit each other. -/
theorem exists_cut {cs : List Char} {ls : List Lexeme} (hdollar : '$' ∉ cs)
    (h : Lexeme.ofChars cs = .ok ls) : ∃ body ts, Cut [] body ts ∧
      cs = (body ++ [endOfText ts]).flatMap fullChars ∧
      ls = Lexeme.place 0 (body ++ [endOfText ts]) := by
  obtain ⟨ps, hps, hattached⟩ := (Lexeme.ofChars_eq_ok_iff cs ls).mp h
  obtain ⟨qs, hcuts, hcs, rfl⟩ := Piece.cuts_of_ofChars hdollar hps
  obtain ⟨body, ts, rfl, hkinds⟩ := hattached.last
  have hpieces : (body.map Lexeme.token).flatMap pieces ++ ts.map .trivia =
      qs.map (Piece.movedTo 0) := by
    have hmoved (l : Lexeme) : l.pieces.map (Piece.movedTo 0) = l.token.pieces := by
      simp [Lexeme.pieces, Lexeme.piece, pieces, Piece.movedTo, Function.comp_def]
    have hall := congrArg (List.map (Piece.movedTo 0)) hattached.pieces
    rw [List.map_append, Piece.movedTo_place, List.map_flatMap, List.flatMap_append] at hall
    simp only [hmoved, List.flatMap_singleton] at hall
    rw [List.flatMap_map]
    have hend : (Lexeme.endOfText ts (byteLength cs)).token.pieces =
      ts.map .trivia ++ [Piece.token .endOfFile "" 0] := rfl
    rw [hend, ← List.append_assoc] at hall
    exact List.append_cancel_right hall
  have hcut : Cut [] (body.map Lexeme.token) ts := by
    refine ⟨List.forall_mem_map.mpr hkinds, List.forall_mem_map.mpr fun l hl => ?_, ?_, ?_⟩
    · exact hattached.trailing l (List.mem_append_left _ hl)
    · have hchain := (List.isChain_map (R := Adjoins) Lexeme.token).mpr hattached.leading
      rwa [List.map_append] at hchain
    · rw [hpieces]
      exact hcuts.movedTo 0
  have hchars : cs = (body.map Lexeme.token ++ [endOfText ts]).flatMap fullChars := by
    rw [← printed_cut, hpieces, hcs, Piece.printed, Piece.printed, List.flatMap_map]
    exact List.flatMap_congr fun p _ => by cases p <;> rfl
  refine ⟨body.map Lexeme.token, ts, hcut, hchars, ?_⟩
  have hread := ofChars_of_cut hcut
  rw [← hchars, h] at hread
  exact Except.ok.inj hread

end Token

/-! ## The same tokens at other offsets -/

namespace Lexeme

/-- A word for accessibility does not touch the token before it in a way that the grammar asks for. -/
theorem atRightShift_place {m n : Nat} {a b c d : Token} {s t : List Token}
    (hab : a = b ∨ a.kind ≠ .gt ∧ b.kind ≠ .gt) (hcd : c = d ∨ c.kind ≠ .gt ∧ d.kind ≠ .gt) :
    Grammar.atRightShift (place m (a :: c :: s)) = Grammar.atRightShift (place n (b :: d :: t)) := by
  simp only [place, Grammar.atRightShift]
  rcases hab with rfl | ⟨ha, hb⟩
  · rcases hcd with rfl | ⟨hc, hd⟩
    · have hoffsets : (m + byteLength (Trivia.chars a.leading) + 1 ==
          m + byteLength a.fullChars + byteLength (Trivia.chars c.leading)) =
          (n + byteLength (Trivia.chars a.leading) + 1 ==
          n + byteLength a.fullChars + byteLength (Trivia.chars c.leading)) := by
        rw [Bool.eq_iff_iff, beq_iff_eq, beq_iff_eq]
        omega
      rw [hoffsets]
    · rw [beq_eq_false_iff_ne.mpr hc, beq_eq_false_iff_ne.mpr hd]
      simp
  · rw [beq_eq_false_iff_ne.mpr ha, beq_eq_false_iff_ne.mpr hb]
    rfl

/-- Tokens that are the same, or words for accessibility, in front of the same end. -/
theorem same_place {body body' : List Token} (ts : List Trivia)
    (h : List.Forall₂ (fun a b => Lexeme.Near ⟨a, 0⟩ ⟨b, 0⟩) body body')
    (hkinds : ∀ t ∈ body, t.kind ≠ .endOfFile) (m n : Nat) :
    Same (place m (body ++ [.endOfText ts])) (place n (body' ++ [.endOfText ts])) := by
  have hgt {a b : Token} (hab : Lexeme.Near ⟨a, 0⟩ ⟨b, 0⟩) :
      a = b ∨ a.kind ≠ .gt ∧ b.kind ≠ .gt := by
    refine hab.imp_right fun ⟨ha, hb⟩ => ⟨?_, ?_⟩
    · rintro hkind
      have hword : a.kind.isAccess = true := ha.1
      rw [hkind] at hword
      cases hword
    · rintro hkind
      have hword : b.kind.isAccess = true := hb.1
      rw [hkind] at hword
      cases hword
  induction h generalizing m n with
  | nil => exact .ends rfl rfl
  | @cons a b body body' hab hrest ih =>
    obtain ⟨ha, hkinds⟩ := List.forall_mem_cons.mp hkinds
    rw [List.cons_append, List.cons_append]
    refine .cons ha hab ?_ (ih hkinds _ _)
    cases hrest with
    | nil => exact atRightShift_place (hgt hab) (.inl rfl)
    | cons hcd _ => exact atRightShift_place (hgt hab) (hgt hcd)

/-- What stands behind a place is the same wherever that place is. -/
theorem same_place_self (body : List Token) (ts : List Trivia)
    (hkinds : ∀ t ∈ body, t.kind ≠ .endOfFile) (m n : Nat) :
    Same (place m (body ++ [.endOfText ts])) (place n (body ++ [.endOfText ts])) :=
  same_place ts (List.forall₂_same.mpr fun _ _ => .inl rfl) hkinds m n

end Lexeme

end SharpLint
