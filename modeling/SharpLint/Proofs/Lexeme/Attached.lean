import Mathlib.Data.List.Chain
import SharpLint.Proofs.Lexeme.Attach

/-!
# The normal form of attached trivia

Lexemes with trivia are in normal form where trailing trivia go up to the first line end behind their
token and no further, so that trivia lead a token only where the line before it has ended, or at the start
of the text:

    Attached stop ps ls        ls are in normal form, end at stop, and are made of the pieces ps

Attachment yields this form (`attached_attach`), and any pieces have only one (`Attached.attach_eq`). So
the lexemes of a text are known by it (`ofChars_eq_ok_iff`).
-/

namespace SharpLint.Lexeme

/-! ## Normal form -/

/-- The trivia go up to the end of a line. -/
def ClosesLine (ts : List Trivia) : Prop := ts.getLast?.map Trivia.kind = some .endOfLine

/-- No line ends in the middle of the trivia. -/
def OnLine (ts : List Trivia) : Prop := ∀ t ∈ ts.dropLast, t.kind ≠ .endOfLine

/-- The second lexeme leads with trivia only if the first one closes its line. -/
def Adjoins (a b : Lexeme) : Prop := b.token.leading ≠ [] → ClosesLine a.token.trailing

/-- The pieces that a lexeme is made of, in order. -/
def pieces (l : Lexeme) : List Piece :=
  l.token.leading.map .trivia ++ l.piece :: l.token.trailing.map .trivia

/-- The lexemes are in normal form, and they are made of the pieces and of the end of the text, which
stands at `stop`. -/
structure Attached (stop : Nat) (ps : List Piece) (ls : List Lexeme) : Prop where
  trailing : ∀ l ∈ ls, OnLine l.token.trailing
  leading : ls.IsChain Adjoins
  last : ∃ body ts, ls = body ++ [endOfText ts stop] ∧ ∀ l ∈ body, l.token.kind ≠ .endOfFile
  pieces : ls.flatMap Lexeme.pieces = ps ++ [.token .endOfFile "" stop]

/-! ## Attachment yields the normal form -/

/-- Pieces that wait to be attached, or that stand in a token which still takes trivia. -/
def Pending.pieces : Pending → List Piece
  | .leading ts => ts.map .trivia
  | .trailing l => l.pieces

theorem pieces_trail (l : Lexeme) (t : Trivia) : (l.trail t).pieces = l.pieces ++ [.trivia t] := by
  simp [Lexeme.pieces, trail, piece]

theorem flatMap_pieces_attach (stop : Nat) (pending : Pending) (ps : List Piece) :
    (attach stop pending ps).flatMap pieces =
      pending.pieces ++ ps ++ [.token .endOfFile "" stop] := by
  induction pending, ps using attach.induct with
  | case1 ts => simp [attach, endOfText, Lexeme.pieces, Pending.pieces, piece]
  | case2 l => simp [attach, endOfText, Lexeme.pieces, Pending.pieces, piece]
  | case3 ts t ps ih =>
    rw [attach, ih]
    simp [Pending.pieces]
  | case4 l t ps hend ih =>
    rw [attach, if_pos hend, List.flatMap_cons, ih, pieces_trail]
    simp [Pending.pieces]
  | case5 l t ps hend ih =>
    rw [attach, if_neg hend, ih]
    simp [Pending.pieces, pieces_trail]
  | case6 ts kind text offset ps ih =>
    rw [attach, ih]
    simp [Pending.pieces, Lexeme.pieces, piece]
  | case7 l kind text offset ps ih =>
    rw [attach, List.flatMap_cons, ih]
    simp [Pending.pieces, Lexeme.pieces, piece]

/-- A token that still takes trivia stands on a line that has not ended. -/
def Pending.Open : Pending → Prop
  | .leading _ => True
  | .trailing l => ∀ t ∈ l.token.trailing, t.kind ≠ .endOfLine

theorem open_trail {l : Lexeme} {t : Trivia} (hl : (Pending.trailing l).Open)
    (ht : t.kind ≠ .endOfLine) : (Pending.trailing (l.trail t)).Open := by
  intro u hu
  rcases List.mem_append.mp hu with hu | hu
  · exact hl u hu
  · rwa [List.mem_singleton.mp hu]

theorem onLine_attach (stop : Nat) (pending : Pending) (ps : List Piece) (hpending : pending.Open) :
    ∀ l ∈ attach stop pending ps, OnLine l.token.trailing := by
  have hopen {l : Lexeme} (hl : (Pending.trailing l).Open) : OnLine l.token.trailing :=
    fun t ht => hl t (List.dropLast_subset _ ht)
  have hbare (kind : TokenKind) (text : String) (ts : List Trivia) (offset : Nat) :
      (Pending.trailing ⟨⟨kind, text, ts, []⟩, offset⟩).Open := nofun
  have hend (ts : List Trivia) : OnLine (endOfText ts stop).token.trailing := nofun
  induction pending, ps using attach.induct with
  | case1 ts =>
    rw [attach]
    exact List.forall_mem_singleton.mpr (hend ts)
  | case2 l =>
    rw [attach]
    exact List.forall_mem_cons.mpr ⟨hopen hpending, List.forall_mem_singleton.mpr (hend [])⟩
  | case3 ts t ps ih =>
    rw [attach]
    exact ih trivial
  | case4 l t ps heol ih =>
    rw [attach, if_pos heol]
    refine List.forall_mem_cons.mpr ⟨fun u hu => hpending u ?_, ih trivial⟩
    simpa [trail] using hu
  | case5 l t ps heol ih =>
    rw [attach, if_neg heol]
    exact ih (open_trail hpending heol)
  | case6 ts kind text offset ps ih =>
    rw [attach]
    exact ih (hbare kind text ts offset)
  | case7 l kind text offset ps ih =>
    rw [attach]
    exact List.forall_mem_cons.mpr ⟨hopen hpending, ih (hbare kind text [] offset)⟩

/-- A token that takes trailing trivia keeps the trivia in front of it. -/
theorem leading_head?_attach {stop : Nat} {l : Lexeme} {ps : List Piece} {m : Lexeme}
    (hm : m ∈ (attach stop (.trailing l) ps).head?) : m.token.leading = l.token.leading := by
  induction ps generalizing l with
  | nil =>
    obtain rfl : l = m := Option.some.inj hm
    rfl
  | cons p ps ih =>
    cases p with
    | trivia t =>
      rw [attach] at hm
      split at hm
      · obtain rfl : l.trail t = m := Option.some.inj hm
        rfl
      · have hleading : m.token.leading = (l.trail t).token.leading := ih hm
        exact hleading
    | token kind text offset =>
      obtain rfl : l = m := Option.some.inj hm
      rfl

theorem isChain_attach (stop : Nat) (pending : Pending) (ps : List Piece) :
    (attach stop pending ps).IsChain Adjoins := by
  induction pending, ps using attach.induct with
  | case1 ts => exact .singleton _
  | case2 l => exact .cons_cons (fun h => absurd rfl h) (.singleton _)
  | case3 ts t ps ih => rwa [attach]
  | case4 l t ps hend ih =>
    rw [attach, if_pos hend]
    refine ih.cons fun m _ _ => ?_
    simp [ClosesLine, trail, hend]
  | case5 l t ps hend ih => rwa [attach, if_neg hend]
  | case6 ts kind text offset ps ih => rwa [attach]
  | case7 l kind text offset ps ih =>
    rw [attach]
    exact ih.cons fun m hm hleading => absurd (leading_head?_attach hm) hleading

/-- Pieces of a text make lexemes in normal form. -/
theorem attached_attach {cs : List Char} (stop : Nat) {ps : List Piece} (hps : ∀ p ∈ ps, p.In cs) :
    Attached stop ps (attach stop (.leading []) ps) where
  trailing := onLine_attach stop _ ps trivial
  leading := isChain_attach stop _ ps
  last := by
    obtain ⟨body, ts, heq, hbody⟩ := Lexeme.attach_eq stop (.leading []) trivial hps
    exact ⟨body, ts, heq, fun l hl => (hbody l hl).1⟩
  pieces := flatMap_pieces_attach stop _ ps

/-! ## The normal form is unique -/

variable {stop : Nat} {ps : List Piece}

theorem attach_leading_append (ts us : List Trivia) (ps : List Piece) :
    attach stop (.leading ts) (us.map .trivia ++ ps) = attach stop (.leading (ts ++ us)) ps := by
  induction us generalizing ts with
  | nil => rw [List.append_nil]; rfl
  | cons u us ih =>
    rw [List.map_cons, List.cons_append, attach, ih, List.append_assoc]
    rfl

/-- The lexeme with more trailing trivia. -/
def trails (l : Lexeme) (ts : List Trivia) : Lexeme :=
  { l with token := { l.token with trailing := l.token.trailing ++ ts } }

theorem OnLine.forall_ne {us : List Trivia} (hus : OnLine us) (hopen : ¬ ClosesLine us) :
    ∀ u ∈ us, u.kind ≠ .endOfLine := by
  intro u hu hkind
  rcases List.eq_nil_or_concat' us with rfl | ⟨ts, t, rfl⟩
  · exact List.not_mem_nil hu
  · rw [OnLine, List.dropLast_concat] at hus
    rcases List.mem_append.mp hu with hu | hu
    · exact hus u hu hkind
    · refine hopen ?_
      rw [ClosesLine, List.getLast?_concat, ← List.mem_singleton.mp hu]
      exact congrArg some hkind

theorem attach_trailing_append (l : Lexeme) {us : List Trivia} (ps : List Piece)
    (hus : ∀ u ∈ us, u.kind ≠ .endOfLine) :
    attach stop (.trailing l) (us.map .trivia ++ ps) = attach stop (.trailing (l.trails us)) ps := by
  induction us generalizing l with
  | nil => simp [trails]
  | cons u us ih =>
    obtain ⟨hu, hus⟩ := List.forall_mem_cons.mp hus
    rw [List.map_cons, List.cons_append, attach, if_neg hu, ih _ hus]
    simp [trails, trail]

theorem attach_trailing_closed (l : Lexeme) {us : List Trivia} (ps : List Piece)
    (hus : OnLine us) (hclosed : ClosesLine us) :
    attach stop (.trailing l) (us.map .trivia ++ ps) =
      l.trails us :: attach stop (.leading []) ps := by
  obtain ⟨t, ht, hkind⟩ := Option.map_eq_some_iff.mp hclosed
  obtain ⟨us, rfl⟩ := List.getLast?_eq_some_iff.mp ht
  rw [OnLine, List.dropLast_concat] at hus
  rw [List.map_append, List.append_assoc, attach_trailing_append l _ hus, List.map_singleton,
    List.singleton_append, attach, if_pos hkind]
  simp [trails, trail]

/-- A token is complete where no trivia come behind it. -/
theorem attach_trailing_token (l : Lexeme) (kind : TokenKind) (text : String) (offset : Nat) :
    attach stop (.trailing l) (.token kind text offset :: ps) =
      l :: attach stop (.leading []) (.token kind text offset :: ps) := by
  rw [attach, attach]

/-- Attaching the pieces of lexemes in normal form gives these lexemes. -/
theorem attach_flatMap_pieces (body : List Lexeme) (ts : List Trivia)
    (htrailing : ∀ l ∈ body, OnLine l.token.trailing)
    (hleading : (body ++ [endOfText ts stop]).IsChain Adjoins) :
    attach stop (.leading []) (body.flatMap pieces ++ ts.map .trivia) =
      body ++ [endOfText ts stop] := by
  induction body with
  | nil =>
    have hend : attach stop (.leading []) (ts.map .trivia ++ []) = attach stop (.leading ts) [] :=
      attach_leading_append [] ts []
    rwa [List.append_nil] at hend
  | cons l body ih =>
    obtain ⟨hl, hbody⟩ := List.forall_mem_cons.mp htrailing
    rw [List.cons_append, List.isChain_cons] at hleading
    obtain ⟨hnext, hchain⟩ := hleading
    have ih := ih hbody hchain
    obtain ⟨⟨kind, text, leading, trailing⟩, offset⟩ := l
    have hfirst : attach stop (.leading [])
          ((⟨⟨kind, text, leading, trailing⟩, offset⟩ : Lexeme).pieces ++
            (body.flatMap pieces ++ ts.map .trivia)) =
        attach stop (.trailing ⟨⟨kind, text, leading, []⟩, offset⟩)
          (trailing.map .trivia ++ (body.flatMap pieces ++ ts.map .trivia)) := by
      rw [Lexeme.pieces, List.append_assoc, attach_leading_append]
      rfl
    rw [List.flatMap_cons, List.append_assoc, hfirst, List.cons_append]
    by_cases hclosed : ClosesLine trailing
    · rw [attach_trailing_closed _ _ hl hclosed, ih]
      rfl
    · -- the line goes on, so that nothing leads the lexeme behind it
      have hnone : ∀ m ∈ (body ++ [endOfText ts stop]).head?, m.token.leading = [] :=
        fun m hm => not_ne_iff.mp fun hne => hclosed (hnext m hm hne)
      rw [attach_trailing_append _ _ (hl.forall_ne hclosed), ← ih]
      cases body with
      | nil =>
        obtain rfl : ts = [] := hnone _ rfl
        rfl
      | cons m body =>
        have hm : m.pieces = m.piece :: m.token.trailing.map .trivia := by
          rw [Lexeme.pieces, hnone m rfl, List.map_nil, List.nil_append]
        rw [List.flatMap_cons, hm, List.cons_append, List.cons_append]
        exact attach_trailing_token _ _ _ _

/-- Only the pieces decide what lexemes in normal form are made of them. -/
theorem Attached.attach_eq {ls : List Lexeme} (h : Attached stop ps ls) :
    attach stop (.leading []) ps = ls := by
  obtain ⟨body, ts, rfl, -⟩ := h.last
  have hpieces : ps = body.flatMap Lexeme.pieces ++ ts.map .trivia := by
    have hps := h.pieces
    simp only [List.flatMap_append, List.flatMap_singleton, Lexeme.pieces, endOfText, piece,
      List.map_nil, ← List.append_assoc] at hps
    exact (List.append_cancel_right hps).symm
  rw [hpieces]
  exact attach_flatMap_pieces body ts (fun l hl => h.trailing l (List.mem_append_left _ hl)) h.leading

/-! ## Lexemes of a text -/

/-- The lexemes of a text are those in normal form that are made of its pieces. -/
theorem ofChars_eq_ok_iff (cs : List Char) (ls : List Lexeme) :
    ofChars cs = .ok ls ↔
      ∃ ps, Piece.ofChars cs = .ok ps ∧ Attached (byteLength cs) ps ls := by
  constructor
  · intro h
    obtain ⟨ps, hps, hls⟩ := bind_eq_ok h
    obtain rfl := Except.ok.inj hls
    obtain ⟨⟨ps', c⟩, hread, hps'⟩ := bind_eq_ok hps
    obtain rfl := Except.ok.inj hps'
    exact ⟨ps', hps, attached_attach _ (covers_ofChars hread).1.pieces⟩
  · rintro ⟨ps, hps, hls⟩
    rw [ofChars, hps, ← hls.attach_eq]
    rfl

end SharpLint.Lexeme
