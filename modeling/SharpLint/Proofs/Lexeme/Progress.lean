import SharpLint.Proofs.Lexeme.Bytes
import SharpLint.Proofs.Lexeme.Coverage

/-!
# Reading goes forward

Where a step ends does not depend on how far the code of its holes was read: behind a hole, reading goes
on after the brace that `Hole.scan?` found, even where it has to go back to there (`next_moves`). So a step
goes forward whatever reads its holes, and the equations of the reader without any fuel,

    code stop c  =  step (next code c), then code stop                       (Solves)

have one solution on the places of a text. It is `upTo` with fuel for the characters that are left.
-/

namespace SharpLint

theorem bind_eq_bind {ε α β : Type} {x y : Except ε α} {f g : α → Except ε β} (hx : x = y)
    (hf : ∀ a, y = .ok a → f a = g a) : (x >>= f) = (y >>= g) := by
  subst hx
  cases x with
  | error e => rfl
  | ok a => exact hf a rfl

namespace Cursor

/-- The place at a byte offset of a text; `none` inside a character and past the end. -/
def at? (cs : List Char) (p : Nat) : Option Cursor :=
  (splitAtByte? p cs).map fun (before, rest) => ⟨before.reverse, rest, p⟩

variable {cs : List Char} {c : Cursor} {p : Nat}

theorem at?_eq_some_iff : at? cs p = some c ↔ c.In cs ∧ c.offset = p := by
  constructor
  · intro h
    obtain ⟨⟨before, rest⟩, hsplit, rfl⟩ := Option.map_eq_some_iff.mp h
    obtain ⟨happend, hlength⟩ := of_splitAtByte? hsplit
    exact ⟨⟨by rw [List.reverse_reverse, happend], by rw [List.reverse_reverse, hlength]⟩, rfl⟩
  · rintro ⟨hc, rfl⟩
    rw [at?, hc.splitAtByte?, Option.map_some]
    dsimp only
    rw [List.reverse_reverse]

theorem In.offset_le (hc : c.In cs) : c.offset ≤ byteLength cs := by
  have := hc.offset_add
  omega

theorem offset_lt_advance {n : Nat} (hn : 0 < n) (hrest : c.rest ≠ []) :
    c.offset < (c.advance n).offset := by
  obtain ⟨d, ds, hds⟩ := List.exists_cons_of_ne_nil hrest
  obtain ⟨m, rfl⟩ := Nat.exists_eq_add_one_of_ne_zero (Nat.ne_of_gt hn)
  have := d.utf8Size_pos
  rw [advance_offset, hds, List.take_succ_cons, byteLength_cons]
  omega

theorem length_advance_lt {n : Nat} (hn : 0 < n) (hrest : c.rest ≠ []) :
    (c.advance n).rest.length < c.rest.length := by
  have := List.length_pos_iff.mpr hrest
  rw [advance_rest, List.length_drop]
  omega

end Cursor

namespace Piece

variable {cs : List Char} {c c' : Cursor} {ps : List Piece} {code code' : Nat → Cursor → Reading}

/-! ## Where a step ends -/

/-- Behind a hole, reading goes on where the search found its brace. -/
theorem hole_moves {opener : Nat} (h : hole code opener c = .ok (ps, c')) :
    ∃ n, c' = c.advance n := by
  unfold hole at h
  split at h
  · cases h
  rename_i found hscan
  obtain ⟨⟨expression, after⟩, -, h⟩ := bind_eq_ok h
  obtain ⟨aligned, -, h⟩ := bind_eq_ok h
  obtain ⟨-, rfl⟩ := Prod.mk.inj (Except.ok.inj h)
  exact ⟨found.close + 1, Cursor.advance_advance c found.close 1⟩

theorem interpolated_moves {verbatim : Bool} {opener fuel : Nat}
    (h : interpolated code verbatim opener fuel c = .ok (ps, c')) : ∃ n, c' = c.advance n := by
  induction fuel generalizing c ps with
  | zero => cases h
  | succ fuel ih =>
    unfold interpolated at h
    dsimp only at h
    rw [tokenIfAny_snd] at h
    split at h
    · obtain ⟨-, rfl⟩ := Prod.mk.inj (Except.ok.inj h)
      exact ⟨_, Cursor.advance_advance c _ 1⟩
    · obtain ⟨⟨inside, behind⟩, hinside, h⟩ := bind_eq_ok h
      obtain ⟨⟨others, last⟩, hothers, h⟩ := bind_eq_ok h
      obtain ⟨-, rfl⟩ := Prod.mk.inj (Except.ok.inj h)
      obtain ⟨n, rfl⟩ := hole_moves hinside
      obtain ⟨m, rfl⟩ := ih hothers
      refine ⟨Extent.interpolatedText verbatim c.rest + 1 + n + m, ?_⟩
      rw [← Cursor.advance_advance, ← Cursor.advance_advance, ← Cursor.advance_advance]
      rfl
    · cases h

/-- A step ends some characters further, whatever reads the code of its holes. -/
theorem next_moves (hrest : c.rest ≠ []) (h : next code c = .ok (ps, c')) :
    ∃ n, 0 < n ∧ c' = c.advance n := by
  obtain ⟨n, hn, ⟨kind, -, h⟩ | ⟨kind, -, h⟩⟩ | ⟨-, verbatim, m, hm, h⟩ := next_cases h hrest
  · exact ⟨n, hn, (Prod.mk.inj h).2⟩
  · exact ⟨n, hn, (Prod.mk.inj h).2⟩
  · obtain ⟨⟨parts, last⟩, hparts, h⟩ := bind_eq_ok h
    obtain ⟨-, rfl⟩ := Prod.mk.inj (Except.ok.inj h)
    obtain ⟨n, rfl⟩ := interpolated_moves hparts
    exact ⟨m + n, by omega, Cursor.advance_advance c m n⟩

/-! ## What a step asks of the reader -/

/-- Two readers agree on the code between places behind `c`. -/
def AgreeFrom (code code' : Nat → Cursor → Reading) (c : Cursor) : Prop :=
  ∀ m n, code (c.advance m).offset (c.advance n) = code' (c.advance m).offset (c.advance n)

theorem AgreeFrom.advance (h : AgreeFrom code code' c) (n : Nat) :
    AgreeFrom code code' (c.advance n) := by
  intro i j
  rw [Cursor.advance_advance, Cursor.advance_advance]
  exact h _ _

theorem alignment_congr (h : AgreeFrom code code' c) (stop : Nat) (comma : Option Nat) :
    alignment code (c.advance stop).offset (comma.map c.advance) =
      alignment code' (c.advance stop).offset (comma.map c.advance) := by
  cases comma with
  | none => rfl
  | some k =>
    have hvalue := h stop (k + 1)
    rw [← Cursor.advance_advance c k 1] at hvalue
    exact bind_eq_bind hvalue fun _ _ => rfl

theorem hole_congr (h : AgreeFrom code code' c) (opener : Nat) :
    hole code opener c = hole code' opener c := by
  unfold hole
  split
  · rfl
  rename_i found _
  obtain ⟨stop, hstop⟩ : ∃ stop,
      (found.colon.map c.advance).getD (c.advance found.close) = c.advance stop := by
    cases found.colon with
    | none => exact ⟨found.close, rfl⟩
    | some m => exact ⟨m, rfl⟩
  obtain ⟨k, hk⟩ : ∃ k, (found.comma.map c.advance).getD (c.advance stop) = c.advance k := by
    cases found.comma with
    | none => exact ⟨stop, rfl⟩
    | some k => exact ⟨k, rfl⟩
  have hexpression : code (c.advance k).offset c = code' (c.advance k).offset c := h k 0
  dsimp only
  rw [hstop, hk, hexpression, alignment_congr h]

/-- Text of an interpolated string, then its closing quote, or a hole and `others`. -/
def part (code : Nat → Cursor → Reading) (verbatim : Bool) (opener : Nat)
    (others : Cursor → Reading) (c : Cursor) : Reading :=
  let (text, c) := c.tokenIfAny .interpolatedStringText (Extent.interpolatedText verbatim c.rest)
  match c.rest with
  | '"' :: _ =>
    let (quote, c) := c.token .interpolatedStringEnd 1
    .ok (text ++ quote, c)
  | '\x7b' :: _ => do
    let (brace, c) := c.token .openBrace 1
    let (inside, c) ← hole code opener c
    let (rest, c) ← others c
    pure (text ++ brace ++ inside ++ rest, c)
  | _ => .error ⟨.unterminated .interpolatedString, opener⟩

theorem interpolated_succ (code : Nat → Cursor → Reading) (verbatim : Bool) (opener fuel : Nat) :
    interpolated code verbatim opener (fuel + 1) =
      part code verbatim opener (interpolated code verbatim opener fuel) := rfl

/-- The rest of a string is read behind its first character. -/
theorem part_congr {verbatim : Bool} {opener : Nat} {others others' : Cursor → Reading}
    (hcode : AgreeFrom code code' c)
    (hothers : c.rest ≠ [] → ∀ n, others (c.advance (n + 1)) = others' (c.advance (n + 1))) :
    part code verbatim opener others c = part code' verbatim opener others' c := by
  unfold part
  dsimp only
  rw [tokenIfAny_snd]
  split
  · rfl
  · rename_i rest hrest
    have hne : c.rest ≠ [] := by
      intro hnil
      rw [Cursor.advance_rest, hnil, List.drop_nil] at hrest
      cases hrest
    refine bind_eq_bind (hole_congr ((hcode.advance _).advance 1) opener) fun read hhole => ?_
    obtain ⟨n, hn⟩ := hole_moves hhole
    refine bind_eq_bind ?_ fun _ _ => rfl
    have hplace : read.2 = c.advance (Extent.interpolatedText verbatim c.rest + n + 1) := by
      rw [hn, Nat.add_right_comm, ← Cursor.advance_advance, ← Cursor.advance_advance]
      rfl
    rw [hplace]
    exact hothers hne _
  · rfl

theorem interpolated_congr (h : AgreeFrom code code' c) (verbatim : Bool) (opener fuel : Nat) :
    interpolated code verbatim opener fuel c = interpolated code' verbatim opener fuel c := by
  induction fuel generalizing c with
  | zero => rfl
  | succ fuel ih =>
    rw [interpolated_succ, interpolated_succ]
    exact part_congr h fun _ n => ih (h.advance _)

/-- A step reads code only behind its first character. -/
theorem next_congr (h : AgreeFrom code code' (c.advance 1)) : next code c = next code' c := by
  have hstring (verbatim : Bool) (n : Nat) :
      interpolatedString code verbatim (n + 1) c = interpolatedString code' verbatim (n + 1) c := by
    have hinside : AgreeFrom code code' (c.advance (n + 1)) := by
      rw [Nat.add_comm, ← Cursor.advance_advance]
      exact h.advance n
    exact bind_eq_bind (interpolated_congr hinside _ _ _) fun _ _ => rfl
  unfold next
  split
  case h_7 => exact hstring false 1
  case h_8 => exact hstring true 2
  case h_9 => exact hstring true 2
  all_goals rfl

/-! ## Strings without fuel -/

/-- Fuel for the characters that are left is enough for a string. -/
theorem interpolated_fuel {verbatim : Bool} {opener fuel fuel' : Nat} (hfuel : c.rest.length < fuel)
    (hfuel' : c.rest.length < fuel') :
    interpolated code verbatim opener fuel c = interpolated code verbatim opener fuel' c := by
  induction fuel generalizing fuel' c with
  | zero => exact absurd hfuel (Nat.not_lt_zero _)
  | succ fuel ih =>
    obtain ⟨fuel', rfl⟩ := Nat.exists_eq_add_one_of_ne_zero (Nat.ne_zero_of_lt hfuel')
    rw [interpolated_succ, interpolated_succ]
    refine part_congr (fun _ _ => rfl) fun hrest n => ?_
    have hlt := Cursor.length_advance_lt (Nat.add_one_pos n) hrest
    exact ih (by omega) (by omega)

/-- An interpolated string from behind its opener, with fuel for all the characters that are left, as
`interpolatedString` reads it. -/
def string (code : Nat → Cursor → Reading) (verbatim : Bool) (opener : Nat) (c : Cursor) : Reading :=
  interpolated code verbatim opener (c.rest.length + 1) c

/-- The parts of a string are read one after the other by one function only. -/
theorem eq_part_iff {verbatim : Bool} {opener : Nat} {read : Cursor → Reading} :
    (∀ c, c.In cs → read c = part code verbatim opener read c) ↔
      ∀ c, c.In cs → read c = string code verbatim opener c := by
  constructor
  · intro hread c hc
    induction hn : c.rest.length using Nat.strongRecOn generalizing c with
    | _ n ih =>
      obtain rfl := hn
      rw [hread c hc, string, interpolated_succ]
      refine part_congr (fun _ _ => rfl) fun hrest n => ?_
      have hlt := Cursor.length_advance_lt (Nat.add_one_pos n) hrest
      rw [ih _ hlt _ (hc.advance _) rfl]
      exact interpolated_fuel (Nat.lt_succ_self _) (by omega)
  · intro hread c hc
    rw [hread c hc, string, interpolated_succ]
    refine part_congr (fun _ _ => rfl) fun hrest n => ?_
    have hlt := Cursor.length_advance_lt (Nat.add_one_pos n) hrest
    rw [hread _ (hc.advance _)]
    exact interpolated_fuel (by omega) (Nat.lt_succ_self _)

/-! ## Code without fuel -/

/-- One step and then `code`, unless the offset is reached. -/
def round (code : Nat → Cursor → Reading) (stop : Nat) (c : Cursor) : Reading :=
  if c.offset < stop then do
    let (first, c) ← next code c
    let (others, c) ← code stop c
    pure (first ++ others, c)
  else .ok ([], c)

theorem upTo_succ (fuel : Nat) : upTo (fuel + 1) = round (upTo fuel) := rfl

theorem round_congr {stop : Nat} (hc : c.In cs) (hstop : stop ≤ byteLength cs)
    (h : ∀ stop c', c'.In cs → c'.rest.length < c.rest.length → stop ≤ byteLength cs →
      code stop c' = code' stop c') : round code stop c = round code' stop c := by
  unfold round
  split
  · rename_i hlt
    have hrest := hc.rest_ne_nil (Nat.lt_of_lt_of_le hlt hstop)
    have hinside : AgreeFrom code code' (c.advance 1) := by
      intro m n
      refine h _ _ ((hc.advance 1).advance n) ?_ ((hc.advance 1).advance m).offset_le
      rw [Cursor.advance_advance]
      exact Cursor.length_advance_lt (by omega) hrest
    refine bind_eq_bind (next_congr hinside) fun read hnext => bind_eq_bind ?_ fun _ _ => rfl
    obtain ⟨n, hn, hplace⟩ := next_moves hrest hnext
    rw [hplace]
    exact h _ _ (hc.advance n) (Cursor.length_advance_lt hn hrest) hstop
  · rfl

/-- Fuel for the characters that are left is enough for code. -/
theorem upTo_fuel {stop fuel fuel' : Nat} (hc : c.In cs) (hstop : stop ≤ byteLength cs)
    (hfuel : c.rest.length < fuel) (hfuel' : c.rest.length < fuel') :
    upTo fuel stop c = upTo fuel' stop c := by
  induction fuel generalizing fuel' stop c with
  | zero => exact absurd hfuel (Nat.not_lt_zero _)
  | succ fuel ih =>
    obtain ⟨fuel', rfl⟩ := Nat.exists_eq_add_one_of_ne_zero (Nat.ne_zero_of_lt hfuel')
    rw [upTo_succ, upTo_succ]
    exact round_congr hc hstop fun _ _ hc hlt hstop => ih hc hstop (by omega) (by omega)

/-- Code up to an offset, with fuel for all the characters that are left. -/
def codeUpTo (stop : Nat) (c : Cursor) : Reading := upTo (c.rest.length + 1) stop c

/-- The reader takes one step after the other, wherever it starts in the text. -/
def Solves (cs : List Char) (code : Nat → Cursor → Reading) : Prop :=
  ∀ stop c, c.In cs → stop ≤ byteLength cs → code stop c = round code stop c

/-- There is one such reader, and it never runs out of fuel. -/
theorem solves_iff :
    Solves cs code ↔ ∀ stop c, c.In cs → stop ≤ byteLength cs → code stop c = codeUpTo stop c := by
  constructor
  · intro hcode stop c hc hstop
    induction hn : c.rest.length using Nat.strongRecOn generalizing stop c with
    | _ n ih =>
      obtain rfl := hn
      rw [hcode stop c hc hstop, codeUpTo, upTo_succ]
      refine round_congr hc hstop fun stop c' hc' hlt hstop => ?_
      rw [ih _ hlt stop c' hc' hstop rfl]
      exact upTo_fuel hc' hstop (Nat.lt_succ_self _) hlt
  · intro hcode stop c hc hstop
    rw [hcode stop c hc hstop, codeUpTo, upTo_succ]
    refine round_congr hc hstop fun stop c' hc' hlt hstop => ?_
    rw [hcode stop c' hc' hstop]
    exact upTo_fuel hc' hstop hlt (Nat.lt_succ_self _)

/-! ## Places and slices -/

/-- The result has the property, or the fault is at a place in the text. -/
def Holds {α : Type} (cs : List Char) (P : α → Prop) : Except FaultAt α → Prop
  | .ok a => P a
  | .error fault => ∃ c, Cursor.at? cs fault.offset = some c

theorem Holds.bind {α β : Type} {P : α → Prop} {Q : β → Prop} {x : Except FaultAt α}
    {f : α → Except FaultAt β} (hx : Holds cs P x) (hf : ∀ a, P a → Holds cs Q (f a)) :
    Holds cs Q (x >>= f) := by
  cases x with
  | error fault => exact hx
  | ok a => exact hf a hx

theorem holds_error {α : Type} {P : α → Prop} (hc : c.In cs) (fault : Fault) :
    Holds cs P (.error ⟨fault, c.offset⟩) :=
  ⟨c, Cursor.at?_eq_some_iff.mpr ⟨hc, rfl⟩⟩

/-- The text of a piece stands in the text, that of a token at its offset. -/
def Sliced (cs : List Char) : Piece → Prop
  | .trivia t => ∃ start, sliceBytes? start (start + t.text.utf8ByteSize) cs = some t.text.toList
  | .token _ text start => sliceBytes? start (start + text.utf8ByteSize) cs = some text.toList

/-- A reading that ends at a place in the text, with slices of the text, or fails at such a place. -/
def Within (cs : List Char) : Reading → Prop :=
  Holds cs fun read => read.2.In cs ∧ ∀ p ∈ read.1, p.Sliced cs

theorem sliceBytes?_taken (hc : c.In cs) (n : Nat) :
    sliceBytes? c.offset (c.offset + (c.taken n).utf8ByteSize) cs = some (c.taken n).toList :=
  (token_in hc (show TokenKind.comma ≠ .endOfFile from nofun) n).2

theorem sliced_token (hc : c.In cs) (kind : TokenKind) (n : Nat) :
    ∀ p ∈ (c.token kind n).1, p.Sliced cs :=
  List.forall_mem_singleton.mpr (sliceBytes?_taken hc n)

theorem sliced_tokenIfAny (hc : c.In cs) (kind : TokenKind) (n : Nat) :
    ∀ p ∈ (c.tokenIfAny kind n).1, p.Sliced cs := by
  unfold Cursor.tokenIfAny
  split
  · exact List.forall_mem_nil _
  · exact sliced_token hc kind n

theorem within_trivia (hc : c.In cs) (kind : TriviaKind) (n : Nat) :
    Within cs (.ok (c.trivia kind n)) :=
  ⟨hc.advance n, List.forall_mem_singleton.mpr ⟨c.offset, sliceBytes?_taken hc n⟩⟩

theorem within_token (hc : c.In cs) (kind : TokenKind) (n : Nat) :
    Within cs (.ok (c.token kind n)) :=
  ⟨hc.advance n, sliced_token hc kind n⟩

theorem within_literal (hc : c.In cs) (kind : TokenKind) (what : Unclosed) (extent : Option Nat) :
    Within cs (literal c kind what extent) := by
  cases extent with
  | none => exact holds_error hc _
  | some n => exact within_token hc kind n

theorem within_plain (hc : c.In cs) (ch : Char) (rest : List Char) :
    Within cs (plain c ch rest) := by
  unfold plain
  split
  · exact within_token hc _ _
  split
  · exact within_token hc _ _
  split
  · exact within_token hc _ _
  split
  · exact within_token hc _ _
  split
  · exact within_token hc _ _
  · unfold punctuationAt
    split
    · exact within_token hc _ _
    · exact holds_error hc _

section

variable (hcode : ∀ stop c, c.In cs → Within cs (code stop c))
include hcode

theorem holds_alignment (stop : Nat) {comma : Option Cursor} (hcomma : ∀ b ∈ comma, b.In cs) :
    Holds cs (fun ps => ∀ p ∈ ps, p.Sliced cs) (alignment code stop comma) := by
  cases comma with
  | none => exact List.forall_mem_nil _
  | some b =>
    have hb := hcomma b rfl
    exact (hcode stop _ (hb.advance 1)).bind fun read hread =>
      List.forall_mem_append.mpr ⟨sliced_token hb _ _, hread.2⟩

omit hcode in
theorem sliced_format (hc : c.In cs) (close : Nat) (colon : Option Nat) :
    ∀ p ∈ format c close colon, p.Sliced cs := by
  cases colon with
  | none => exact List.forall_mem_nil _
  | some m =>
    exact List.forall_mem_append.mpr
      ⟨sliced_token (hc.advance m) _ _, sliced_tokenIfAny ((hc.advance m).advance 1) _ _⟩

theorem within_hole {opener : Cursor} (hopener : opener.In cs) (hc : c.In cs) :
    Within cs (hole code opener.offset c) := by
  unfold hole
  split
  · exact holds_error hopener _
  rename_i found _
  refine (hcode _ c hc).bind fun read hread => ?_
  have hcomma : ∀ b ∈ found.comma.map c.advance, b.In cs := by
    intro b hb
    obtain ⟨k, -, rfl⟩ := Option.map_eq_some_iff.mp hb
    exact hc.advance k
  refine (holds_alignment hcode _ hcomma).bind fun aligned haligned => ?_
  refine ⟨(hc.advance _).advance 1, ?_⟩
  simp only [List.forall_mem_append]
  exact ⟨⟨⟨hread.2, haligned⟩, sliced_format hc _ _⟩, sliced_token (hc.advance _) _ _⟩

theorem within_interpolated {verbatim : Bool} {fuel : Nat} {opener : Cursor}
    (hopener : opener.In cs) (hc : c.In cs) :
    Within cs (interpolated code verbatim opener.offset fuel c) := by
  induction fuel generalizing c with
  | zero => exact holds_error hopener _
  | succ fuel ih =>
    have htext := sliced_tokenIfAny hc .interpolatedStringText
      (Extent.interpolatedText verbatim c.rest)
    have hbehind := hc.advance (Extent.interpolatedText verbatim c.rest)
    rw [interpolated_succ]
    unfold part
    dsimp only
    rw [tokenIfAny_snd]
    split
    · exact ⟨hbehind.advance 1, List.forall_mem_append.mpr ⟨htext, sliced_token hbehind _ _⟩⟩
    · refine (within_hole hcode hopener (hbehind.advance 1)).bind fun inside hinside => ?_
      refine (ih hinside.1).bind fun others hothers => ?_
      refine ⟨hothers.1, ?_⟩
      simp only [List.forall_mem_append]
      exact ⟨⟨⟨htext, sliced_token hbehind _ _⟩, hinside.2⟩, hothers.2⟩
    · exact holds_error hopener _

theorem within_interpolatedString (hc : c.In cs) (verbatim : Bool) (n : Nat) :
    Within cs (interpolatedString code verbatim n c) := by
  refine (within_interpolated hcode hc (hc.advance n)).bind fun parts hparts => ⟨hparts.1, ?_⟩
  exact List.forall_mem_append.mpr ⟨sliced_token hc _ _, hparts.2⟩

theorem within_next (hc : c.In cs) : Within cs (next code c) := by
  unfold next
  split
  case h_1 => exact ⟨hc, List.forall_mem_nil _⟩
  case h_2 | h_3 | h_4 | h_5 => exact within_trivia hc _ _
  case h_6 =>
    split
    · exact within_trivia hc _ _
    · exact holds_error hc _
  case h_7 => exact within_interpolatedString hcode hc false 2
  case h_8 => exact within_interpolatedString hcode hc true 3
  case h_9 => exact within_interpolatedString hcode hc true 3
  case h_10 | h_11 | h_12 | h_13 => exact within_literal hc _ _ _
  case h_14 =>
    split
    · exact within_trivia hc _ _
    split
    · exact within_trivia hc _ _
    · exact within_plain hc _ _

end

/-- Reading stays in the text, whether it succeeds or not. -/
theorem within_upTo (fuel stop : Nat) (hc : c.In cs) : Within cs (upTo fuel stop c) := by
  induction fuel generalizing stop c with
  | zero => exact ⟨hc, List.forall_mem_nil _⟩
  | succ fuel ih =>
    rw [upTo_succ]
    unfold round
    split
    · refine (within_next (fun _ _ => ih _) hc).bind fun first hfirst => ?_
      refine (ih _ hfirst.1).bind fun others hothers => ?_
      exact ⟨hothers.1, List.forall_mem_append.mpr ⟨hfirst.2, hothers.2⟩⟩
    · exact ⟨hc, List.forall_mem_nil _⟩

/-! ## Whole texts -/

/-- A step goes forward from one place of a text to another, whatever reads the code of its holes. -/
theorem next_forward {p : Nat} (hp : Cursor.at? cs p = some c) (hlt : p < byteLength cs)
    (h : next code c = .ok (ps, c')) :
    Cursor.at? cs c'.offset = some c' ∧ p < c'.offset ∧ c'.offset ≤ byteLength cs := by
  obtain ⟨hc, rfl⟩ := Cursor.at?_eq_some_iff.mp hp
  have hrest := hc.rest_ne_nil hlt
  obtain ⟨n, hn, rfl⟩ := next_moves hrest h
  exact ⟨Cursor.at?_eq_some_iff.mpr ⟨hc.advance n, rfl⟩, Cursor.offset_lt_advance hn hrest,
    (hc.advance n).offset_le⟩

theorem ofChars_eq_map (cs : List Char) :
    ofChars cs = Prod.fst <$> codeUpTo (byteLength cs) (.ofChars cs) := by
  unfold ofChars
  rw [show codeUpTo (byteLength cs) (.ofChars cs) =
    upTo (cs.length + 1) (byteLength cs) (.ofChars cs) from rfl]
  cases upTo (cs.length + 1) (byteLength cs) (.ofChars cs) with
  | error fault => rfl
  | ok read => rfl

/-- Reading a text goes forward and ends.

A step that succeeds in front of the end of the text leads from a boundary of characters to a later one.
So there is only one reader of the parts of a string, and only one of code, that take one part or one
step after the other; these readers have fuel for the characters that are left, and a text is read by
them. Its pieces are slices of it, a fault is at a boundary of its characters, and so are the places that
are searched over its bytes. -/
theorem reading_ends (cs : List Char) :
    (∀ code p c ps c', Cursor.at? cs p = some c → p < byteLength cs → next code c = .ok (ps, c') →
      Cursor.at? cs c'.offset = some c' ∧ p < c'.offset ∧ c'.offset ≤ byteLength cs) ∧
    (∀ code verbatim opener read,
      (∀ c, c.In cs → read c = part code verbatim opener read c) ↔
        ∀ c, c.In cs → read c = string code verbatim opener c) ∧
    (∀ code, Solves cs code ↔
      ∀ stop c, c.In cs → stop ≤ byteLength cs → code stop c = codeUpTo stop c) ∧
    ofChars cs = Prod.fst <$> codeUpTo (byteLength cs) (.ofChars cs) ∧
    Holds cs (fun ps => ∀ p ∈ ps, p.Sliced cs) (ofChars cs) ∧
    ∀ c : Cursor, c.In cs →
      Hole.scan? (asBytes c.rest) = (Hole.scan? c.rest).map (Hole.inBytes c.rest) ∧
      Extent.verbatim? (asBytes c.rest) = (Extent.verbatim? c.rest).map (bytesTo c.rest) ∧
      Extent.SameOver Extent.number c.rest := by
  have hread := within_upTo (cs.length + 1) (byteLength cs) (Cursor.in_ofChars cs)
  exact ⟨fun code p c ps c' => next_forward, fun code verbatim opener read => eq_part_iff,
    fun code => solves_iff, ofChars_eq_map cs, hread.bind fun read hread => hread.2,
    fun c _ => ⟨Hole.scan?_asBytes c.rest, Extent.verbatim?_asBytes c.rest,
      Extent.sameOver_number c.rest⟩⟩

/-- The comment in the hole of this text runs past its brace, and reading goes on behind the brace. -/
example :
    let inside := (Cursor.ofChars "$\"\x7ba//\x7d\"".toList).advance 3
    (codeUpTo 6 inside).toOption.map (·.2.offset) = some 8 ∧
      (hole codeUpTo 0 inside).toOption.map (·.2.offset) = some 7 := ⟨rfl, rfl⟩

end Piece

end SharpLint
