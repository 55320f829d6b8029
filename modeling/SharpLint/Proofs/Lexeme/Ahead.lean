import SharpLint.Proofs.Lexeme.Rules

/-!
# How far a piece looks ahead

The rule that reads a piece looks at what comes behind it. So the text behind may be exchanged where the
piece cannot tell the difference:

    directly behind it       the new text does not start with a character that could belong to the piece
                             (TriviaAt.ends, TokenAt.ends)
    behind what follows it   the new text starts with neither a digit nor a sign; only an exponent and a
                             point look further than to the next character
                             (TriviaAt.beyond, TokenAt.beyond)
-/

namespace SharpLint

/-! ## Numbers -/

namespace Extent

/-- Characters that a number can have behind its first one, signs apart. -/
def inNumber (c : Char) : Bool :=
  isHexDigitOrSeparator c || isTypeSuffix c || c == '.' || isHexLetter c

def isDigitOrSign (c : Char) : Bool := c.isDigit || isSign c

/-- Where `f` takes no more than `w` from `w ++ rest`, it takes as much from `w ++ rest'`, unless it takes
all of `w` and `rest'` could go on with a number. -/
def Keeps (rest rest' : List Char) (f : List Char → Nat) (w : List Char) : Prop :=
  f (w ++ rest) ≤ w.length → (f (w ++ rest) = w.length → Stops inNumber rest') →
    f (w ++ rest') = f (w ++ rest)

theorem Stops.mono {p q : Char → Bool} {cs : List Char} (h : Stops q cs)
    (hp : ∀ c, p c = true → q c = true) : Stops p cs := by
  intro c hc
  rw [Bool.eq_false_iff]
  exact fun hpc => Bool.eq_false_iff.mp (h c hc) (hp c hpc)

theorem Stops.starts {p : Char → Bool} {cs : List Char} (h : Stops p cs) : starts p cs = false := by
  cases cs with
  | nil => rfl
  | cons c cs => exact h c rfl

theorem starts_append {p : Char → Bool} {w rest : List Char} (hw : w ≠ []) :
    starts p (w ++ rest) = starts p w := by
  obtain ⟨c, cs, rfl⟩ := List.exists_cons_of_ne_nil hw
  rfl

variable {rest rest' w : List Char} {f g h : List Char → Nat}

theorem keeps_run {p : Char → Bool} (hp : ∀ c, p c = true → inNumber c = true) (w : List Char) :
    Keeps rest rest' (run p) w := by
  intro hle hends
  induction w with
  | nil =>
    have hzero : run p ([] ++ rest) = 0 := Nat.le_zero.mp hle
    have hstops : Stops p rest' := (hends hzero).mono hp
    rw [hzero]
    exact run_append (w := []) nofun hstops
  | cons c w ih =>
    rw [List.cons_append, run_cons] at hle hends
    rw [List.cons_append, List.cons_append, run_cons, run_cons]
    split
    · rename_i hc
      rw [if_pos hc, List.length_cons] at hle hends
      rw [ih (by omega) fun heq => hends (by omega)]
    · rfl

theorem Keeps.then (hf : Keeps rest rest' f w) (hg : Keeps rest rest' g (w.drop (f (w ++ rest))))
    (hh : ∀ cs, h cs = f cs + g (cs.drop (f cs))) : Keeps rest rest' h w := by
  intro hle hends
  rw [hh] at hle hends
  have hfirst : f (w ++ rest') = f (w ++ rest) := hf (by omega) fun heq => hends (by
    rw [heq, List.drop_left] at hle ⊢
    omega)
  have hdrop (cs : List Char) :
      (w ++ cs).drop (f (w ++ rest)) = w.drop (f (w ++ rest)) ++ cs :=
    List.drop_append_of_le_length (by omega)
  rw [hdrop] at hle hends
  rw [hh, hh, hfirst, hdrop, hdrop]
  rw [hg (by rw [List.length_drop]; omega) fun heq => hends (by rw [heq, List.length_drop]; omega)]

theorem run_pos_of_starts {cs : List Char} (h : starts Char.isDigit cs = true) :
    0 < run isDigitOrSeparator cs := by
  cases cs with
  | nil => cases h
  | cons c cs =>
    have hc : c.isDigit = true := h
    exact run_pos (by simp [isDigitOrSeparator, hc])

theorem inNumber_of_digit {c : Char} (h : isDigitOrSeparator c = true) : inNumber c = true := by
  simp [inNumber, isHexDigitOrSeparator, h]

theorem keeps_digitsBehind (hrest : Stops isDigitOrSign rest') {k : Nat} (hk : k ≤ w.length) :
    Keeps rest rest' (digitsBehind k) w := by
  intro hle hends
  have hdrop (cs : List Char) : (w ++ cs).drop k = w.drop k ++ cs :=
    List.drop_append_of_le_length hk
  unfold digitsBehind at hle hends ⊢
  rw [hdrop] at hle hends
  rw [hdrop, hdrop]
  by_cases hw : w.drop k = []
  · -- nothing is left of `w`, so that digits can follow in neither text
    have hlength : w.length ≤ k := List.drop_eq_nil_iff.mp hw
    have hnone : starts Char.isDigit rest' = false :=
      (hrest.mono fun c hc => by simp [isDigitOrSign, hc]).starts
    have hnone' : ¬ starts Char.isDigit rest = true := by
      intro hdigit
      have hpos := run_pos_of_starts hdigit
      rw [hw, List.nil_append, if_pos hdigit] at hle
      omega
    rw [hw, List.nil_append, List.nil_append, hnone, if_neg hnone', if_neg Bool.false_ne_true]
  · rw [starts_append hw] at hle hends ⊢
    rw [starts_append hw]
    split
    · rename_i hdigit
      rw [if_pos hdigit] at hle hends
      rw [keeps_run (p := isDigitOrSeparator) (fun _ => inNumber_of_digit) (w.drop k)]
      · rw [List.length_drop]
        omega
      · intro heq
        rw [List.length_drop] at heq
        exact hends (by omega)
    · rfl

theorem keeps_fraction (hrest : Stops isDigitOrSign rest') (w : List Char) :
    Keeps rest rest' fraction w := by
  intro hle hends
  by_cases hw : w = []
  · subst hw
    have hzero : fraction ([] ++ rest) = 0 := Nat.le_zero.mp hle
    have hpoint : starts (· == '.') rest' = false :=
      ((hends hzero).mono fun c hc => by simp [inNumber, hc]).starts
    rw [hzero, List.nil_append, fraction_eq, hpoint, if_neg Bool.false_ne_true]
  · rw [fraction_eq, starts_append hw] at hle hends
    rw [fraction_eq, fraction_eq, starts_append hw, starts_append hw]
    split
    · rename_i hpoint
      rw [if_pos hpoint] at hle hends
      exact keeps_digitsBehind hrest (List.length_pos_iff.mpr hw) hle hends
    · rfl

/-- Digits take more than what stands in front of them. -/
theorem lt_digitsBehind {k : Nat} {cs : List Char} (h : digitsBehind k cs ≠ 0) :
    k < digitsBehind k cs := by
  unfold digitsBehind at h ⊢
  split
  · rename_i hdigit
    have hpos := run_pos_of_starts hdigit
    omega
  · rename_i hnone
    rw [if_neg hnone] at h
    exact absurd rfl h

theorem keeps_exponent (hrest : Stops isDigitOrSign rest') (w : List Char) :
    Keeps rest rest' exponent w := by
  intro hle hends
  by_cases hw : w = []
  · subst hw
    have hzero : exponent ([] ++ rest) = 0 := Nat.le_zero.mp hle
    have hletter : starts isExponent rest' = false := by
      refine ((hends hzero).mono fun c hc => ?_).starts
      simp only [isExponent, Bool.or_eq_true, beq_iff_eq] at hc
      rcases hc with rfl | rfl <;> decide
    rw [hzero, List.nil_append, exponent_eq, hletter, if_neg Bool.false_ne_true]
  · rw [exponent_eq, starts_append hw] at hle hends
    rw [exponent_eq, exponent_eq, starts_append hw, starts_append hw]
    split
    · rename_i hletter
      rw [if_pos hletter] at hle hends
      obtain ⟨c, w, rfl⟩ := List.exists_cons_of_ne_nil hw
      have hone (cs : List Char) : (c :: w ++ cs).drop 1 = w ++ cs := rfl
      unfold exponentDigitsBehind at hle hends ⊢
      rw [hone] at hle hends
      rw [hone, hone]
      by_cases hnil : w = []
      · -- no sign follows in the new text, and a sign in the old one has no digits behind it
        subst hnil
        have hsign : starts isSign rest' = false :=
          (hrest.mono fun d hd => by simp [isDigitOrSign, hd]).starts
        have hdigit : starts Char.isDigit rest' = false :=
          (hrest.mono fun d hd => by simp [isDigitOrSign, hd]).starts
        have hnew : digitsBehind 1 ([c] ++ rest') = 0 := by
          rw [digitsBehind]
          exact if_neg (Bool.eq_false_iff.mp hdigit)
        rw [List.nil_append] at hle
        rw [List.nil_append, List.nil_append, hsign, if_neg Bool.false_ne_true, hnew]
        split
        · rename_i hold
          rw [if_pos hold] at hle
          have hlt := mt lt_digitsBehind (Nat.not_lt.mpr (Nat.le_succ_of_le hle))
          exact (not_ne_iff.mp hlt).symm
        · rename_i hold
          rw [if_neg hold] at hle
          have hlt := mt lt_digitsBehind (Nat.not_lt.mpr hle)
          exact (not_ne_iff.mp hlt).symm
      · rw [starts_append hnil] at hle hends
        rw [starts_append hnil, starts_append hnil]
        split
        · rename_i hsign
          rw [if_pos hsign] at hle hends
          have htwo : 2 ≤ (c :: w).length := Nat.succ_le_succ (List.length_pos_iff.mpr hnil)
          exact keeps_digitsBehind hrest htwo hle hends
        · rename_i hsign
          rw [if_neg hsign] at hle hends
          exact keeps_digitsBehind hrest (Nat.succ_pos _) hle hends
    · rfl

theorem keeps_decimal (hrest : Stops isDigitOrSign rest') (w : List Char) :
    Keeps rest rest' decimal w :=
  ((keeps_run (fun _ => inNumber_of_digit) w).then (keeps_fraction hrest _) fun _ => rfl).then
    (keeps_exponent hrest _) fun _ => rfl

theorem keeps_unsuffixed (hrest : Stops isDigitOrSign rest') (w : List Char) :
    Keeps rest rest' unsuffixed w := by
  intro hle hends
  have hstart (h : Stops inNumber rest') : startsHex rest' = false ∧
      starts isHexLetter rest' = false := by
    constructor
    · rw [startsHex, (h.mono fun c hc => ?_ : Stops (· == '0') rest').starts, Bool.false_and]
      rw [beq_iff_eq] at hc
      rw [hc]
      decide
    · exact (h.mono fun c hc => by simp [inNumber, hc]).starts
  have htest : startsHex (w ++ rest') = startsHex (w ++ rest) := by
    rcases w with _ | ⟨c, _ | ⟨d, w⟩⟩
    · have hold : ¬ startsHex rest = true := fun hhex => by
        rw [List.nil_append, unsuffixed_eq, if_pos hhex, List.length_nil] at hle
        omega
      have hzero : unsuffixed ([] ++ rest) = 0 := Nat.le_zero.mp hle
      rw [List.nil_append, List.nil_append, Bool.eq_false_iff.mpr hold, (hstart (hends hzero)).1]
    · have hold : ¬ startsHex ([c] ++ rest) = true := fun hhex => by
        rw [unsuffixed_eq, if_pos hhex, List.length_singleton] at hle
        omega
      rw [Bool.eq_false_iff.mpr hold, Bool.eq_false_iff]
      intro hhex
      obtain ⟨hzero, hletter⟩ := Bool.and_eq_true_iff.mp hhex
      -- the zero is a number, so that `rest'` does not go on with the letter
      have hc : c = '0' := by simpa [starts] using hzero
      have hpos : 0 < decimal ([c] ++ rest) := decimal_pos_of_digit (by rw [hc]; decide)
      rw [unsuffixed_eq, if_neg hold] at hle hends
      have hone : decimal ([c] ++ rest) = [c].length := Nat.le_antisymm hle hpos
      rw [show starts isHexLetter ((([c] ++ rest')).drop 1) = starts isHexLetter rest' from rfl,
        (hstart (hends hone)).2] at hletter
      cases hletter
    · rfl
  rw [unsuffixed_eq] at hle hends
  rw [unsuffixed_eq, unsuffixed_eq, htest]
  split
  · rename_i hhex
    rw [if_pos hhex] at hle hends
    have hdrop (cs : List Char) : (w ++ cs).drop 2 = w.drop 2 ++ cs :=
      List.drop_append_of_le_length (by omega)
    rw [hdrop] at hle hends
    rw [hdrop, hdrop, keeps_run (p := isHexDigitOrSeparator) (fun c hc => by simp [inNumber, hc])
      (w.drop 2)]
    · rw [List.length_drop]
      omega
    · intro heq
      rw [List.length_drop] at heq
      exact hends (by omega)
  · rename_i hhex
    rw [if_neg hhex] at hle hends
    exact keeps_decimal hrest w hle hends

theorem keeps_number (hrest : Stops isDigitOrSign rest') (w : List Char) :
    Keeps rest rest' number w :=
  (keeps_unsuffixed hrest w).then
    (keeps_run (fun c hc => by simp [inNumber, hc]) _) fun _ => rfl

end Extent

/-! ## Punctuation -/

/-- Characters that some punctuation has behind its first one, and digits, which make a point the start
of a number. -/
def Extent.joins (c : Char) : Bool :=
  c.isDigit || ['?', '=', '<', '>', '&', '|', '+', '-', '*', '/', '.'].contains c

namespace Piece

open Extent

variable {rest rest' v w : List Char}

theorem joins_of_mem_tail : ∀ kind ∈ punctuation, ∀ c ∈ (spelling kind).drop 1, joins c = true := by
  have hall : ∀ kind ∈ punctuation, ((spelling kind).drop 1).all joins = true := by decide
  exact fun kind hkind => List.all_eq_true.mp (hall kind hkind)

/-- A punctuation that no text with `w` in front starts with. -/
theorem not_isPrefixOf {a : TokenKind} (h : ¬ spelling a <+: w ++ rest) : ¬ spelling a <+: w :=
  fun hshort => h (hshort.trans (List.prefix_append w rest))

/-- The first punctuation in the list that the text starts with. -/
theorem punctuation?_eq_some_iff {kind : TokenKind} {cs : List Char} :
    punctuation? cs = some kind ↔ spelling kind <+: cs ∧ ∃ before behind,
      punctuation = before ++ kind :: behind ∧ ∀ a ∈ before, ¬ spelling a <+: cs := by
  unfold punctuation?
  rw [List.find?_eq_some_iff_append, List.isPrefixOf_iff_prefix]
  simp only [Bool.not_eq_true', ← List.isPrefixOf_iff_prefix, Bool.not_eq_true]

/-- What is found does not depend on text that could not go on with a punctuation. -/
theorem punctuation?_ends {kind : TokenKind} (h : punctuation? (spelling kind ++ rest) = some kind)
    (hrest : Stops joins rest') : punctuation? (spelling kind ++ rest') = some kind := by
  obtain ⟨-, before, behind, hall, hbefore⟩ := punctuation?_eq_some_iff.mp h
  refine punctuation?_eq_some_iff.mpr ⟨List.prefix_append _ _, before, behind, hall, fun a ha hnew => ?_⟩
  have hold := hbefore a ha
  rcases List.prefix_or_prefix_of_prefix hnew (List.prefix_append _ _) with hshort | ⟨t, ht⟩
  · exact hold (hshort.trans (List.prefix_append _ _))
  · -- the next character of `a` would be the first one of the new text
    rw [← ht, List.prefix_append_right_inj] at hnew
    cases t with
    | nil =>
      rw [List.append_nil] at ht
      exact hold (ht ▸ List.prefix_append _ _)
    | cons d t =>
      have hmem : a ∈ punctuation := hall ▸ List.mem_append_left _ ha
      have hkind : kind ∈ punctuation := hall ▸ List.mem_append_right _ List.mem_cons_self
      obtain ⟨c, cs, hcs⟩ := List.exists_cons_of_ne_nil (punctuation_spelled kind hkind).2
      have hjoins : joins d = true := joins_of_mem_tail a hmem d (by simp [← ht, hcs])
      obtain ⟨more, hmore⟩ := hnew
      rw [hrest d (by rw [← hmore]; rfl)] at hjoins
      cases hjoins

/-- The longest punctuation starts with another one, and all that is not longer comes later in the
list. -/
theorem punctuation_long : ∀ a ∈ punctuation, 2 < (spelling a).length →
    (spelling a).length = 3 ∧ ∃ b ∈ punctuation.take 4, spelling b = (spelling a).take 2 := by
  decide

theorem punctuation_short : ∀ a ∈ punctuation.take 4, 1 < (spelling a).length := by
  decide

/-- What is found does not depend on text behind the next character. -/
theorem punctuation?_beyond {kind : TokenKind} (hv : v ≠ [])
    (h : punctuation? (spelling kind ++ (v ++ rest)) = some kind) :
    punctuation? (spelling kind ++ (v ++ rest')) = some kind := by
  obtain ⟨-, before, behind, hall, hbefore⟩ := punctuation?_eq_some_iff.mp h
  refine punctuation?_eq_some_iff.mpr ⟨List.prefix_append _ _, before, behind, hall, fun a ha hnew => ?_⟩
  have hold := hbefore a ha
  rw [← List.append_assoc] at hold hnew
  rcases List.prefix_or_prefix_of_prefix hnew (List.prefix_append _ _) with hshort | ⟨t, ht⟩
  · exact hold (hshort.trans (List.prefix_append _ _))
  · -- `a` is longer than two characters, and the first two are a punctuation that is found before
    have hmem : a ∈ punctuation := hall ▸ List.mem_append_left _ ha
    have hkind : kind ∈ punctuation := hall ▸ List.mem_append_right _ List.mem_cons_self
    have hone := List.length_pos_iff.mpr (punctuation_spelled kind hkind).2
    have hnext := List.length_pos_iff.mpr hv
    have hlength : (spelling kind).length + v.length + t.length = (spelling a).length := by
      rw [← ht, List.length_append, List.length_append]
    have ht' : t ≠ [] := by
      rintro rfl
      rw [List.append_nil] at ht
      exact hold (ht ▸ List.prefix_append _ _)
    have hmore := List.length_pos_iff.mpr ht'
    obtain ⟨hthree, b, hb, hspelling⟩ := punctuation_long a hmem (by omega)
    have htake : (spelling a).take 2 = spelling kind ++ v := by
      rw [← ht]
      exact List.take_left' (by rw [List.length_append]; omega)
    have hfound : ((punctuation.take 4).find? fun k =>
        (spelling k).isPrefixOf (spelling kind ++ (v ++ rest))).isSome = true := by
      rw [List.find?_isSome]
      refine ⟨b, hb, List.isPrefixOf_iff_prefix.mpr ?_⟩
      rw [hspelling, htake, ← List.append_assoc]
      exact List.prefix_append _ _
    obtain ⟨first, hfirst⟩ := Option.isSome_iff_exists.mp hfound
    have hfirst' : punctuation? (spelling kind ++ (v ++ rest)) = some first := by
      rw [punctuation?, ← List.take_append_drop 4 punctuation, List.find?_append, hfirst]
      rfl
    obtain rfl := Option.some.inj (h.symm.trans hfirst')
    have htwo := punctuation_short kind (List.mem_of_find?_eq_some hfirst)
    omega

end Piece

/-! ## Any piece -/

/-- Characters that a token of the kind could have behind its last one. -/
def TokenKind.takes : TokenKind → Char → Bool
  | .identifier | .keyword _ => Extent.continuesName
  | .numericLiteral => fun c => Extent.inNumber c || Extent.isSign c
  | .stringLiteral => (· == '"')
  | .charLiteral => fun _ => false
  | _ => Extent.joins

/-- Characters that trivia of the kind could have behind its last one. -/
def TriviaKind.takes : TriviaKind → Char → Bool
  | .whitespace => fun c => Extent.isSpace c || c == '\n'
  | .endOfLine | .multiLineComment => fun _ => false
  | .singleLineComment | .docComment | .preprocessorDirective => Extent.isInLine

namespace Piece

open Extent

variable {rest rest' v w : List Char} {line : Bool}

theorem takes_wordKind (w : List Char) : (wordKind w).takes = continuesName := by
  unfold wordKind
  cases Keyword.ofText? (String.ofList w) <;> rfl

theorem takes_punctuation : ∀ kind ∈ punctuation, kind.takes = joins := by
  have hkinds : ∀ kind ∈ punctuation,
      kind ∉ [.identifier, .numericLiteral, .stringLiteral, .charLiteral] ∧ kind.keyword? = none := by
    decide
  intro kind hkind
  obtain ⟨hkind, hword⟩ := hkinds kind hkind
  cases kind <;> first | rfl | (exact absurd (by decide) hkind) | cases hword

theorem takes_lineComment (w : List Char) : (lineCommentKind w).takes = isInLine := by
  unfold lineCommentKind
  split <;> rfl

/-- The end of trivia, as far as it is decided by the next character. -/
theorem TriviaAt.ends {kind : TriviaKind} (h : TriviaAt line rest kind w)
    (hrest : Stops kind.takes rest') : TriviaAt line rest' kind w := by
  cases h with
  | newline => exact .newline
  | carriageNewline => exact .carriageNewline
  | carriage _ => exact .carriage (hrest.mono fun c hc => by simp [TriviaKind.takes, hc])
  | lineComment hcs _ => exact .lineComment hcs (takes_lineComment _ ▸ hrest)
  | comment hclosed hlength => exact .comment hclosed hlength
  | blank hne hw _ =>
    exact .blank hne hw (hrest.mono fun c hc => by simp [TriviaKind.takes, hc])
  | directive hline hcs _ => exact .directive hline hcs hrest

theorem TriviaAt.beyond {kind : TriviaKind} (h : TriviaAt line (v ++ rest) kind w) (hv : v ≠ []) :
    TriviaAt line (v ++ rest') kind w := by
  have hstops {p : Char → Bool} (h : Stops p (v ++ rest)) : Stops p (v ++ rest') :=
    (stops_append hv).mpr ((stops_append hv).mp h)
  cases h with
  | newline => exact .newline
  | carriageNewline => exact .carriageNewline
  | carriage h => exact .carriage (hstops h)
  | lineComment hcs h => exact .lineComment hcs (hstops h)
  | comment hclosed hlength => exact .comment hclosed hlength
  | blank hne hw h => exact .blank hne hw (hstops h)
  | directive hline hcs h => exact .directive hline hcs (hstops h)

/-- Only a directive asks whether a line starts. -/
theorem TriviaAt.anywhere {line' : Bool} {kind : TriviaKind} (h : TriviaAt line rest kind w)
    (hw : w.head? ≠ some '#') : TriviaAt line' rest kind w := by
  cases h with
  | newline => exact .newline
  | carriageNewline => exact .carriageNewline
  | carriage h => exact .carriage h
  | lineComment hcs h => exact .lineComment hcs h
  | comment hclosed hlength => exact .comment hclosed hlength
  | blank hne hw h => exact .blank hne hw h
  | directive => exact absurd rfl hw

/-- A literal that is closed is not empty. -/
theorem ne_nil_of_closes {quote : Char} {cs : List Char} (h : Closes (quoted? quote) cs) :
    cs ≠ [] := by
  rintro rfl
  have hnone := h []
  simp [quoted?] at hnone

theorem TokenAt.ends {kind : TokenKind} (h : TokenAt rest kind w) (hrest : Stops kind.takes rest') :
    TokenAt rest' kind w := by
  cases h with
  | verbatim hclosed _ => exact .verbatim hclosed hrest
  | raw hclosed => exact .raw hclosed
  | @string cs hclosed hraw =>
    refine .string hclosed fun more hmore => ?_
    obtain ⟨c, cs, rfl⟩ := List.exists_cons_of_ne_nil (ne_nil_of_closes hclosed)
    obtain ⟨rfl, htail⟩ := List.cons.inj hmore
    cases cs with
    | nil =>
      rw [List.append_eq, List.nil_append] at htail
      have hquote := hrest '"' (by rw [htail]; rfl)
      cases hquote
    | cons d cs =>
      obtain ⟨rfl, -⟩ := List.cons.inj htail
      exact hraw _ rfl
  | character hclosed => exact .character hclosed
  | @number c cs hfirst hnumber =>
    have hquiet : Stops isDigitOrSign rest' := hrest.mono fun c hc => by
      simp only [isDigitOrSign, Bool.or_eq_true] at hc
      simp only [TokenKind.takes, Bool.or_eq_true]
      exact hc.imp_left fun hdigit => inNumber_of_digit (by simp [isDigitOrSeparator, hdigit])
    refine .number hfirst ?_
    rw [keeps_number hquiet (c :: cs) (Nat.le_of_eq hnumber)
      fun _ => hrest.mono fun c hc => by simp [TokenKind.takes, hc], hnumber]
  | name hc hcs _ => exact .name hc hcs (takes_wordKind _ ▸ hrest)
  | verbatimName hc hcs _ => exact .verbatimName hc hcs (takes_wordKind _ ▸ hrest)
  | questionDot _ =>
    exact .questionDot (hrest.mono fun c hc => by simp [TokenKind.takes, joins, hc])
  | punctuation hfound halone =>
    rw [takes_punctuation kind (List.mem_of_find?_eq_some hfound)] at hrest
    refine .punctuation (punctuation?_ends hfound hrest) ⟨fun _ => ?_, fun _ => ?_, ?_⟩
    · refine hrest.mono fun c hc => ?_
      simp only [Bool.or_eq_true, beq_iff_eq] at hc
      rcases hc with rfl | rfl <;> decide
    · exact hrest.mono fun c hc => by simp [joins, hc]
    · rintro - cs rfl
      exact absurd (hrest '.' rfl) (by decide)

theorem TokenAt.beyond {kind : TokenKind} (h : TokenAt (v ++ rest) kind w) (hv : v ≠ [])
    (hrest : Stops isDigitOrSign rest') (hpoint : v = ['.'] → Stops Char.isDigit rest) :
    TokenAt (v ++ rest') kind w := by
  have hstops {p : Char → Bool} (h : Stops p (v ++ rest)) : Stops p (v ++ rest') :=
    (stops_append hv).mpr ((stops_append hv).mp h)
  cases h with
  | verbatim hclosed h => exact .verbatim hclosed (hstops h)
  | raw hclosed => exact .raw hclosed
  | @string cs hclosed hraw =>
    refine .string hclosed fun more hmore => ?_
    obtain ⟨c, cs, rfl⟩ := List.exists_cons_of_ne_nil (ne_nil_of_closes hclosed)
    obtain ⟨d, v, rfl⟩ := List.exists_cons_of_ne_nil hv
    obtain ⟨rfl, htail⟩ := List.cons.inj hmore
    cases cs with
    | nil =>
      obtain ⟨rfl, -⟩ := List.cons.inj htail
      exact hraw _ rfl
    | cons e cs =>
      obtain ⟨rfl, -⟩ := List.cons.inj htail
      exact hraw _ rfl
  | character hclosed => exact .character hclosed
  | @number c cs hfirst hnumber =>
    have hmore := List.length_pos_iff.mpr hv
    rw [← List.append_assoc] at hnumber
    refine .number hfirst ?_
    rw [← List.append_assoc, keeps_number hrest (c :: cs ++ v), hnumber]
    · rw [hnumber, List.length_append, List.length_cons]
      omega
    · intro heq
      rw [hnumber, List.length_append, List.length_cons] at heq
      omega
  | name hc hcs h => exact .name hc hcs (hstops h)
  | verbatimName hc hcs h => exact .verbatimName hc hcs (hstops h)
  | questionDot h => exact .questionDot (hstops h)
  | punctuation hfound halone =>
    refine .punctuation (punctuation?_beyond hv hfound)
      ⟨fun hk => hstops (halone.slash hk), fun hk => hstops (halone.dot hk), fun hk cs hcs => ?_⟩
    obtain ⟨d, v, rfl⟩ := List.exists_cons_of_ne_nil hv
    obtain ⟨rfl, rfl⟩ := List.cons.inj hcs
    have hdigit := halone.question hk (v ++ rest) rfl
    cases v with
    | nil =>
      -- in the old text a digit stands behind the point
      rw [List.nil_append] at hdigit
      exact absurd hdigit (Bool.eq_false_iff.mp (hpoint rfl).starts)
    | cons d v => exact hdigit

end Piece

end SharpLint
