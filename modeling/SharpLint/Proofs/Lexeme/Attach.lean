import SharpLint.Proofs.Grammar.Exact
import SharpLint.Proofs.Lexeme.Coverage

/-!
# Attached trivia

Attaching trivia to tokens moves no character: the lexemes print what the pieces print, and their
tokens are those of the pieces with the end of the text behind them. With the coverage of the
pieces this gives, for the lexemes `ls` of a text,

    text.utf8ByteSize ≤ (printed ls).utf8ByteSize        with equality where printed ls = text

and the tokens stand where their offsets say (`printed_ofChars`).
-/

namespace SharpLint.Lexeme

/-- The text of lexemes with all their trivia. -/
def printed (ls : List Lexeme) : String := String.ofList (ls.flatMap fun l => l.token.fullChars)

/-- Characters that wait to be attached, or that stand in a token which still takes trivia. -/
def Pending.chars : Pending → List Char
  | .leading ts => Trivia.chars ts
  | .trailing l => l.token.fullChars

theorem fullChars_trail (l : Lexeme) (t : Trivia) :
    (l.trail t).token.fullChars = l.token.fullChars ++ t.text.toList := by
  simp [trail, Token.fullChars, Trivia.chars]

theorem flatMap_attach (stop : Nat) (pending : Pending) (ps : List Piece) :
    ((attach stop pending ps).flatMap fun l => l.token.fullChars) =
      pending.chars ++ Piece.printed ps := by
  induction pending, ps using attach.induct with
  | case1 ts => simp [attach, endOfText, Token.fullChars, Pending.chars, Trivia.chars]
  | case2 l => simp [attach, endOfText, Token.fullChars, Pending.chars, Trivia.chars]
  | case3 ts t ps ih =>
    rw [attach, ih]
    simp [Pending.chars, Trivia.chars, Piece.printed, Piece.chars]
  | case4 l t ps hend ih =>
    rw [attach, if_pos hend, List.flatMap_cons, ih, fullChars_trail]
    simp [Pending.chars, Trivia.chars, Piece.printed, Piece.chars]
  | case5 l t ps hend ih =>
    rw [attach, if_neg hend, ih]
    simp [Pending.chars, fullChars_trail, Piece.printed, Piece.chars]
  | case6 ts kind text offset ps ih =>
    rw [attach, ih]
    simp [Pending.chars, Token.fullChars, Trivia.chars, Piece.printed, Piece.chars]
  | case7 l kind text offset ps ih =>
    rw [attach, List.flatMap_cons, ih]
    simp [Pending.chars, Token.fullChars, Trivia.chars, Piece.printed, Piece.chars]

/-- The piece that a lexeme is made of. -/
def piece (l : Lexeme) : Piece := .token l.token.kind l.token.text l.offset

/-- The lexeme is a token of the text `cs`, and not its end. -/
def In (cs : List Char) (l : Lexeme) : Prop := l.piece.In cs

/-- A token that still takes trivia comes from a piece with the given property. -/
def Pending.From (P : Piece → Prop) : Pending → Prop
  | .leading _ => True
  | .trailing l => P l.piece

/-- The lexemes come from the pieces, and the end of the text stands behind them. -/
theorem attach_eq {P : Piece → Prop} (stop : Nat) (pending : Pending) {ps : List Piece}
    (hpending : pending.From P) (hps : ∀ p ∈ ps, P p) :
    ∃ ls ts, attach stop pending ps = ls ++ [endOfText ts stop] ∧ ∀ l ∈ ls, P l.piece := by
  have hcons {l : Lexeme} {rest : List Lexeme} (hl : P l.piece)
      (h : ∃ ls ts, rest = ls ++ [endOfText ts stop] ∧ ∀ l ∈ ls, P l.piece) :
      ∃ ls ts, l :: rest = ls ++ [endOfText ts stop] ∧ ∀ l ∈ ls, P l.piece := by
    obtain ⟨ls, ts, rfl, hls⟩ := h
    exact ⟨l :: ls, ts, rfl, List.forall_mem_cons.mpr ⟨hl, hls⟩⟩
  induction pending, ps using attach.induct with
  | case1 ts => exact ⟨[], ts, rfl, nofun⟩
  | case2 l => exact hcons hpending ⟨[], [], rfl, nofun⟩
  | case3 ts t ps ih =>
    rw [attach]
    exact ih trivial (List.forall_mem_cons.mp hps).2
  | case4 l t ps hend ih =>
    rw [attach, if_pos hend]
    exact hcons hpending (ih trivial (List.forall_mem_cons.mp hps).2)
  | case5 l t ps hend ih =>
    rw [attach, if_neg hend]
    exact ih hpending (List.forall_mem_cons.mp hps).2
  | case6 ts kind text offset ps ih =>
    rw [attach]
    obtain ⟨htoken, hps⟩ := List.forall_mem_cons.mp hps
    exact ih htoken hps
  | case7 l kind text offset ps ih =>
    rw [attach]
    obtain ⟨htoken, hps⟩ := List.forall_mem_cons.mp hps
    exact hcons hpending (ih htoken hps)

theorem endsOnce_append {cs : List Char} {ls : List Lexeme} (hls : ∀ l ∈ ls, l.In cs)
    (ts : List Trivia) (stop : Nat) : EndsOnce (ls ++ [endOfText ts stop]) := by
  induction ls with
  | nil => exact ⟨fun _ => ⟨rfl, rfl⟩, trivial⟩
  | cons l ls ih =>
    obtain ⟨hl, hls⟩ := List.forall_mem_cons.mp hls
    exact ⟨fun hend => absurd hend hl.1, ih hls⟩

/-! ## Lexemes of a text -/

variable {cs : List Char} {ls : List Lexeme}

/-- The pieces behind the lexemes of a text, and where reading them ended. -/
theorem ofChars_eq (h : ofChars cs = .ok ls) :
    ∃ ps c, ls = attach (byteLength cs) (.leading []) ps ∧
      Piece.upTo (cs.length + 1) (byteLength cs) (.ofChars cs) = .ok (ps, c) := by
  obtain ⟨ps, hps, h⟩ := bind_eq_ok h
  obtain ⟨⟨ps', c⟩, hread, hps⟩ := bind_eq_ok hps
  obtain rfl := Except.ok.inj hps
  exact ⟨ps', c, (Except.ok.inj h).symm, hread⟩

theorem covers_ofChars {ps : List Piece} {c : Cursor}
    (h : Piece.upTo (cs.length + 1) (byteLength cs) (.ofChars cs) = .ok (ps, c)) :
    Piece.Covers cs (.ofChars cs) ps c ∧ byteLength cs ≤ c.offset :=
  Piece.code_upTo cs _ _ _ _ _ (Cursor.in_ofChars cs) (Nat.lt_succ_self _) (Nat.le_refl _) h

/-- The lexemes of a text are tokens of the text and then its end. -/
theorem ofChars_append (h : ofChars cs = .ok ls) :
    ∃ body ts, ls = body ++ [endOfText ts (byteLength cs)] ∧ ∀ l ∈ body, l.In cs := by
  obtain ⟨ps, c, rfl, hread⟩ := ofChars_eq h
  exact attach_eq (byteLength cs) (.leading []) trivial (covers_ofChars hread).1.pieces

theorem endsOnce_ofChars (h : ofChars cs = .ok ls) : EndsOnce ls := by
  obtain ⟨body, ts, rfl, hbody⟩ := ofChars_append h
  exact endsOnce_append hbody ts _

theorem getLast?_ofChars (h : ofChars cs = .ok ls) :
    ls.getLast?.map (·.token.kind) = some .endOfFile := by
  obtain ⟨body, ts, rfl, -⟩ := ofChars_append h
  simp [endOfText]

theorem sliceBytes?_ofChars (h : ofChars cs = .ok ls) :
    ∀ l ∈ ls, sliceBytes? l.offset (l.offset + l.token.text.utf8ByteSize) cs =
      some l.token.text.toList := by
  obtain ⟨body, ts, rfl, hbody⟩ := ofChars_append h
  intro l hl
  rcases List.mem_append.mp hl with hl | hl
  · exact (hbody l hl).2
  · obtain rfl := List.mem_singleton.mp hl
    have hsplit : splitAtByte? (byteLength cs) cs = some (cs, []) := by
      simpa using splitAtByte?_append cs []
    simp [endOfText, sliceBytes?, hsplit, splitAtByte?]

theorem printed_eq {ps : List Piece} (h : ls = attach (byteLength cs) (.leading []) ps) :
    printed ls = String.ofList (Piece.printed ps) := by
  rw [printed, h, flatMap_attach]
  rfl

/-- Without a `$` nothing is printed twice. -/
theorem printed_of_notMem {text : String} {ls : List Lexeme} (h : ofChars text.toList = .ok ls)
    (hdollar : '$' ∉ text.toList) : printed ls = text := by
  obtain ⟨ps, c, hls, hread⟩ := ofChars_eq h
  obtain ⟨hcovers, hreached⟩ := covers_ofChars hread
  have hexact : (Cursor.ofChars text.toList).rest = Piece.printed ps ++ c.rest :=
    Piece.printed_upTo hdollar hread
  rw [hcovers.inside.rest_eq_nil hreached, List.append_nil] at hexact
  rw [printed_eq hls, ← hexact]
  exact String.ofList_toList

/-- The lexemes of a text never print less than the text, and print as many bytes only when they
print the text. Each token stands at its offset, and without a `$` nothing is printed twice. -/
theorem printed_ofChars {text : String} {ls : List Lexeme} (h : ofChars text.toList = .ok ls) :
    text.utf8ByteSize ≤ (printed ls).utf8ByteSize ∧
    ((printed ls).utf8ByteSize = text.utf8ByteSize ↔ printed ls = text) ∧
    (∀ l ∈ ls, sliceBytes? l.offset (l.offset + l.token.text.utf8ByteSize) text.toList =
      some l.token.text.toList) ∧
    ('$' ∉ text.toList → printed ls = text) := by
  obtain ⟨ps, c, hls, hread⟩ := ofChars_eq h
  obtain ⟨hcovers, hreached⟩ := covers_ofChars hread
  have hsize : (printed ls).utf8ByteSize = byteLength (Piece.printed ps) := by
    rw [printed_eq hls, utf8ByteSize_eq_byteLength, String.toList_ofList]
  have hle : c.offset ≤ byteLength (Piece.printed ps) := by
    simpa [Cursor.ofChars] using hcovers.covers
  refine ⟨?_, ⟨fun heq => ?_, fun heq => by rw [heq]⟩, sliceBytes?_ofChars h, printed_of_notMem h⟩
  · rw [hsize, utf8ByteSize_eq_byteLength]
    exact Nat.le_trans hreached hle
  · -- no byte is printed twice, so no step went back
    rw [hsize, utf8ByteSize_eq_byteLength] at heq
    have htight := hcovers.tight (by simp only [Cursor.ofChars]; omega)
    rw [hcovers.inside.rest_eq_nil hreached, List.append_nil] at htight
    rw [printed_eq hls, ← htight]
    exact String.ofList_toList

/-- In the hole of this text a comment runs past the closing brace, so that the brace and the quote
are printed twice. -/
theorem printed_ofChars_comment_in_hole :
    ∃ ls, ofChars "$\"\x7ba//\x7d\"".toList = .ok ls ∧ printed ls = "$\"\x7ba//\x7d\"\x7d\"" ∧
      (printed ls).utf8ByteSize ≠ "$\"\x7ba//\x7d\"".utf8ByteSize := by
  refine ⟨_, rfl, rfl, ?_⟩
  rw [(printed_ofChars rfl).2.1.ne]
  decide

end SharpLint.Lexeme
