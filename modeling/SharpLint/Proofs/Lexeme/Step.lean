import SharpLint.Proofs.Lexeme.Reading

/-!
# One step of a reading

A step reads one piece of trivia or one token, at least one character long, or an interpolated
string, which needs a `$` (`next_cases`). Everything else about a step follows from that: it goes
forward, and outside interpolated strings it yields exactly the characters that it passes.
-/

namespace SharpLint

/-! ## Extents are not empty -/

namespace Extent

theorem run_pos {p : Char → Bool} {c : Char} {cs : List Char} (h : p c = true) :
    0 < run p (c :: cs) := by
  simp [run, h]

theorem continuesName_of_startsName {c : Char} (h : startsName c = true) :
    continuesName c = true := by
  simp only [startsName, continuesName, Bool.or_eq_true] at h ⊢
  refine h.imp_right fun hletter => ?_
  unfold isLetter at hletter
  unfold isLetterOrNumber
  split
  · rename_i hascii
    rw [if_pos hascii] at hletter
    simp [Char.isAlphanum, hletter]
  · rename_i hascii
    rw [if_neg hascii] at hletter
    simp [hletter]

theorem decimal_pos_of_digit {c : Char} {cs : List Char} (h : c.isDigit = true) :
    0 < decimal (c :: cs) := by
  have hrun : 0 < run isDigitOrSeparator (c :: cs) := run_pos (by simp [isDigitOrSeparator, h])
  unfold decimal
  dsimp only
  omega

theorem two_le_decimal_of_point {d : Char} {cs : List Char} (h : d.isDigit = true) :
    2 ≤ decimal ('.' :: d :: cs) := by
  have hrun : run isDigitOrSeparator ('.' :: d :: cs) = 0 := by
    have hpoint : isDigitOrSeparator '.' = false := by decide
    simp [run, hpoint]
  have hdigit : 0 < run isDigitOrSeparator (d :: cs) := run_pos (by simp [isDigitOrSeparator, h])
  have hfraction : 2 ≤ fraction ('.' :: d :: cs) := by
    simp only [fraction, h, if_true]
    omega
  unfold decimal
  dsimp only
  rw [hrun, List.drop_zero]
  omega

theorem number_pos_of_digit {c : Char} {cs : List Char} (h : c.isDigit = true) :
    0 < number (c :: cs) := by
  suffices hdigits : 0 < unsuffixed (c :: cs) by
    unfold number
    dsimp only
    omega
  unfold unsuffixed
  split
  · rename_i x ds heq
    split
    · omega
    · exact decimal_pos_of_digit (by decide)
  · exact decimal_pos_of_digit h

theorem two_le_number_of_point {d : Char} {cs : List Char} (h : d.isDigit = true) :
    2 ≤ number ('.' :: d :: cs) := by
  have hdigits : 2 ≤ unsuffixed ('.' :: d :: cs) := two_le_decimal_of_point h
  unfold number
  dsimp only
  omega

end Extent

/-! ## Comments up to the end of a line -/

/-- Comments that go to the end of their line. -/
def TriviaKind.isLineComment : TriviaKind → Bool
  | .singleLineComment | .docComment => true
  | _ => false

/-- A comment that goes to the end of its line starts with two slashes, and has no line end. -/
def Trivia.FitsLine (t : Trivia) : Prop :=
  t.kind.isLineComment = true →
    ∃ rest, t.text.toList = '/' :: '/' :: rest ∧ ∀ c ∈ rest, Extent.isInLine c = true

theorem Trivia.fitsLine_of_kind {t : Trivia} (h : t.kind.isLineComment = false) : t.FitsLine := by
  intro hcomment
  rw [h] at hcomment
  cases hcomment

namespace Piece

theorem punctuation_spelled : ∀ kind ∈ punctuation, kind ≠ .endOfFile ∧ spelling kind ≠ [] := by
  decide

/-! ## What a step reads -/

/-- What a token of `n` characters at `c` can be: not the end of the text, and punctuation only
where that is spelled there. -/
def Fits (c : Cursor) (n : Nat) (kind : TokenKind) : Prop :=
  kind ≠ .endOfFile ∧ (kind ∈ punctuation → c.taken n = String.ofList (spelling kind))

/-- One piece that is the next `n` characters of `c`. -/
def Single (c : Cursor) (ps : List Piece) (c' : Cursor) : Prop :=
  ∃ n, 0 < n ∧ ((∃ kind, Trivia.FitsLine ⟨kind, c.taken n⟩ ∧ (ps, c') = c.trivia kind n) ∨
    ∃ kind, Fits c n kind ∧ (ps, c') = c.token kind n)

variable {cs : List Char} {c c' : Cursor} {ps : List Piece}

theorem fits_of_notMem {kind : TokenKind} {n : Nat} (h : kind ∉ .endOfFile :: punctuation) :
    Fits c n kind :=
  ⟨fun hend => h (hend ▸ List.mem_cons_self), fun hmem => absurd (List.mem_cons_of_mem _ hmem) h⟩

theorem fits_punctuation? {kind : TokenKind} (h : punctuation? c.rest = some kind) :
    Fits c (spelling kind).length kind := by
  refine ⟨(punctuation_spelled kind (List.mem_of_find?_eq_some h)).1, fun _ => ?_⟩
  have hprefix : spelling kind <+: c.rest := by simpa using List.find?_some h
  rw [Cursor.taken, ← List.prefix_iff_eq_take.mp hprefix]

theorem single_trivia {kind : TriviaKind} {n : Nat}
    (h : Except.ok (c.trivia kind n) = (.ok (ps, c') : Reading))
    (hk : kind.isLineComment = false) (hn : 0 < n) : Single c ps c' :=
  ⟨n, hn, .inl ⟨kind, Trivia.fitsLine_of_kind hk, (Except.ok.inj h).symm⟩⟩

theorem single_comment {kind : TriviaKind} {rest : List Char} (hrest : c.rest = '/' :: '/' :: rest)
    (h : Except.ok (c.trivia kind (Extent.run Extent.isInLine c.rest)) = (.ok (ps, c') : Reading)) :
    Single c ps c' := by
  have htaken : c.rest.take (Extent.run Extent.isInLine c.rest) = c.rest.takeWhile Extent.isInLine :=
    List.prefix_iff_eq_take.mp (List.takeWhile_prefix _) |>.symm
  refine ⟨_, hrest ▸ Extent.run_pos (by decide), .inl ⟨kind, fun _ => ?_, (Except.ok.inj h).symm⟩⟩
  refine ⟨rest.takeWhile Extent.isInLine, ?_, List.all_eq_true.mp List.all_takeWhile⟩
  rw [Cursor.taken, String.toList_ofList, htaken, hrest]
  rfl

theorem single_token {kind : TokenKind} {n : Nat}
    (h : Except.ok (c.token kind n) = (.ok (ps, c') : Reading)) (hk : Fits c n kind)
    (hn : 0 < n) : Single c ps c' :=
  ⟨n, hn, .inr ⟨kind, hk, (Except.ok.inj h).symm⟩⟩

theorem single_word {n : Nat} (h : Except.ok (word c n) = (.ok (ps, c') : Reading))
    (hn : 0 < n) : Single c ps c' := by
  refine single_token h (fits_of_notMem ?_) hn
  cases Keyword.ofText? (c.taken n) <;> simp [punctuation]

theorem single_literal {kind : TokenKind} {what : Unclosed} {extent : Option Nat}
    (h : literal c kind what extent = .ok (ps, c')) (hk : kind ∉ .endOfFile :: punctuation)
    (hn : ∀ n ∈ extent, 0 < n) : Single c ps c' := by
  cases extent with
  | none => cases h
  | some n => exact single_token h (fits_of_notMem hk) (hn n rfl)

theorem single_plain {ch : Char} {rest : List Char} (hrest : c.rest = ch :: rest)
    (h : plain c ch rest = .ok (ps, c')) : Single c ps c' := by
  unfold plain at h
  split at h
  · rename_i hdigit
    exact single_token h (fits_of_notMem (by decide)) (hrest ▸ Extent.number_pos_of_digit hdigit)
  split at h
  · rename_i hpoint
    simp only [Bool.and_eq_true, beq_iff_eq] at hpoint
    obtain ⟨rfl, hdigit⟩ := hpoint
    cases rest with
    | nil => simp at hdigit
    | cons d ds =>
      have htwo : 2 ≤ Extent.number ('.' :: d :: ds) := Extent.two_le_number_of_point hdigit
      exact single_token h (fits_of_notMem (by decide)) (by rw [hrest]; omega)
  split at h
  · rename_i hname
    exact single_word h (hrest ▸ Extent.run_pos (Extent.continuesName_of_startsName hname))
  split at h
  · exact single_word h (by omega)
  split at h
  · exact single_token h (fits_of_notMem (by decide)) (by omega)
  · unfold punctuationAt at h
    split at h
    · rename_i kind hkind
      have hspelling := (punctuation_spelled kind (List.mem_of_find?_eq_some hkind)).2
      exact single_token h (fits_punctuation? hkind) (List.length_pos_iff.mpr hspelling)
    · cases h

/-- A step reads one piece, or an interpolated string. -/
theorem next_cases {code : Nat → Cursor → Reading} (h : next code c = .ok (ps, c'))
    (hc : c.rest ≠ []) :
    Single c ps c' ∨
      '$' ∈ c.rest ∧ ∃ verbatim n, 0 < n ∧ interpolatedString code verbatim n c = .ok (ps, c') := by
  unfold next at h
  split at h <;> rename_i hrest
  case h_1 => exact absurd hrest hc
  case h_2 => exact .inl (single_trivia h rfl (by omega))
  case h_3 => exact .inl (single_trivia h rfl (by omega))
  case h_4 => exact .inl (single_trivia h rfl (by omega))
  case h_5 => exact .inl (single_comment hrest h)
  case h_6 =>
    split at h
    · exact .inl (single_trivia h rfl (by omega))
    · cases h
  case h_7 => exact .inr ⟨by simp [hrest], false, 2, by omega, h⟩
  case h_8 => exact .inr ⟨by simp [hrest], true, 3, by omega, h⟩
  case h_9 => exact .inr ⟨by simp [hrest], true, 3, by omega, h⟩
  case h_10 => exact .inl (single_literal h (by decide) (by simp))
  case h_11 =>
    refine .inl (single_literal h (by decide) fun n hn => ?_)
    have hquotes : 0 < Extent.run (· == '"') c.rest := hrest ▸ Extent.run_pos rfl
    simp only [Extent.raw?, Option.mem_def, Option.map_eq_some_iff] at hn
    obtain ⟨m, -, rfl⟩ := hn
    omega
  case h_12 => exact .inl (single_literal h (by decide) (by simp))
  case h_13 => exact .inl (single_literal h (by decide) (by simp))
  case h_14 =>
    split at h
    · rename_i hspace
      exact .inl (single_trivia h rfl (hrest ▸ Extent.run_pos hspace))
    split at h
    · rename_i hhash
      simp only [Bool.and_eq_true, beq_iff_eq] at hhash
      obtain ⟨rfl, -⟩ := hhash
      exact .inl (single_trivia h rfl (hrest ▸ Extent.run_pos (by decide)))
    · exact .inl (single_plain hrest h)

theorem Single.covers (hc : c.In cs) (h : Single c ps c') : Covers cs c ps c' := by
  obtain ⟨n, -, ⟨kind, -, h⟩ | ⟨kind, hk, h⟩⟩ := h
  · obtain ⟨rfl, rfl⟩ := Prod.mk.inj h
    exact covers_trivia hc kind n
  · obtain ⟨rfl, rfl⟩ := Prod.mk.inj h
    exact covers_token hc kind n hk.1

theorem Single.rest_eq (h : Single c ps c') :
    c.rest = printed ps ++ c'.rest ∧ (c.rest ≠ [] → c'.rest.length < c.rest.length) := by
  have hlength {n : Nat} (hn : 0 < n) (hne : c.rest ≠ []) :
      (c.rest.drop n).length < c.rest.length := by
    have := List.length_pos_iff.mpr hne
    rw [List.length_drop]
    omega
  obtain ⟨n, hn, ⟨kind, -, h⟩ | ⟨kind, -, h⟩⟩ := h
  · obtain ⟨rfl, rfl⟩ := Prod.mk.inj h
    simpa [printed, chars, chars_taken] using hlength hn
  · obtain ⟨rfl, rfl⟩ := Prod.mk.inj h
    simpa [printed, chars, chars_taken] using hlength hn

end Piece

end SharpLint
