import SharpLint.Proofs.Lexeme.Bytes
import SharpLint.Proofs.Lexeme.Literal
import SharpLint.Proofs.Lexeme.Step

/-!
# One rule for each form of a piece

Without a `$` a step reads one piece, and what it is depends on the characters ahead and on whether a
line starts here. `TriviaAt` and `TokenAt` have one rule for each form; a rule says what the characters
`w` of the piece are like, and what must not come next in `rest`:

    next code c = .ok (the piece with the characters w, …)      where c.rest = w ++ rest

holds exactly by a rule (`exists_rule`, `next_of_triviaAt`, `next_of_tokenAt`).
-/

namespace SharpLint

/-! ## Closed literals and comments -/

namespace Extent

/-- The next character, if there is one, fails `p`. -/
def Stops (p : Char → Bool) (cs : List Char) : Prop := ∀ c ∈ cs.head?, p c = false

variable {p : Char → Bool} {w rest : List Char}

theorem stops_nil : Stops p [] := nofun

theorem stops_append (hw : w ≠ []) : Stops p (w ++ rest) ↔ Stops p w := by
  obtain ⟨c, cs, rfl⟩ := List.exists_cons_of_ne_nil hw
  rfl

theorem run_append (hw : ∀ c ∈ w, p c = true) (hrest : Stops p rest) :
    run p (w ++ rest) = w.length := by
  rw [run, List.takeWhile_append_of_pos hw]
  cases rest with
  | nil => simp
  | cons c cs =>
    have hc : p c = false := hrest c rfl
    simp [hc]

theorem exists_run (p : Char → Bool) (cs : List Char) :
    ∃ w rest, cs = w ++ rest ∧ (∀ c ∈ w, p c = true) ∧ Stops p rest ∧ run p cs = w.length := by
  refine ⟨cs.takeWhile p, cs.dropWhile p, List.takeWhile_append_dropWhile.symm, ?_, ?_, rfl⟩
  · exact List.all_eq_true.mp List.all_takeWhile
  · intro c hc
    have hfails := List.head?_dropWhile_not p cs
    rw [hc] at hfails
    simpa using hfails

/-- A search that takes `w` off the text, whatever comes behind. -/
def Closes (search : List Char → Option Nat) (w : List Char) : Prop :=
  ∀ more, search (w ++ more) = some w.length

theorem exists_quoted? {quote : Char} (hbackslash : quote ≠ '\\') (hbreak : quote ≠ '\n')
    {cs : List Char} {n : Nat} (h : quoted? quote cs = some n) :
    ∃ w rest, cs = w ++ rest ∧ w.length = n ∧ Closes (quoted? quote) w := by
  have hone (rest : List Char) : Closes (quoted? quote) [quote] := by
    intro more
    cases more with
    | nil => simp [quoted?]
    | cons d ds => simp [quoted?, hbackslash, hbreak]
  induction cs using quoted?.induct quote generalizing n with
  | case1 => cases h
  | case2 c hc =>
    obtain rfl : c = quote := eq_of_beq hc
    rw [quoted?, if_pos hc] at h
    exact ⟨[c], [], rfl, Option.some.inj h, hone []⟩
  | case3 c hc =>
    rw [quoted?, if_neg hc] at h
    cases h
  | case4 c d cs hc ih =>
    rw [quoted?, if_pos hc] at h
    obtain ⟨m, hm, rfl⟩ := Option.map_eq_some_iff.mp h
    obtain ⟨w, rest, rfl, rfl, hw⟩ := ih hm
    refine ⟨c :: d :: w, rest, rfl, rfl, fun more => ?_⟩
    rw [List.cons_append, List.cons_append, quoted?, if_pos hc, hw more]
    rfl
  | case5 c d cs hc hd =>
    rw [quoted?, if_neg hc, if_pos hd] at h
    cases h
  | case6 c d cs hc hd hquote =>
    obtain rfl : c = quote := eq_of_beq hquote
    rw [quoted?, if_neg hc, if_neg hd, if_pos hquote] at h
    exact ⟨[c], d :: cs, rfl, Option.some.inj h, hone []⟩
  | case7 c d cs hc hd hquote ih =>
    rw [quoted?, if_neg hc, if_neg hd, if_neg hquote] at h
    obtain ⟨m, hm, rfl⟩ := Option.map_eq_some_iff.mp h
    obtain ⟨w, rest, hcs, rfl, hw⟩ := ih hm
    cases w with
    | nil => simpa [quoted?] using hw []
    | cons e w =>
      obtain ⟨rfl, rfl⟩ := List.cons.inj hcs
      refine ⟨c :: d :: w, rest, rfl, rfl, fun more => ?_⟩
      rw [List.cons_append, List.cons_append, quoted?, if_neg hc, if_neg hd, if_neg hquote,
        ← List.cons_append, hw more]
      rfl

/-- A verbatim literal is closed by a quote that no other one follows. -/
theorem exists_verbatim? {cs : List Char} {n : Nat} (h : verbatim? cs = some n) :
    ∃ w rest, cs = w ++ rest ∧ w.length = n ∧ Stops (· == '"') rest ∧
      ∀ more, Stops (· == '"') more → verbatim? (w ++ more) = some w.length := by
  have hone : ∀ more, Stops (· == '"') more → verbatim? (['"'] ++ more) = some 1 := by
    intro more hmore
    cases more with
    | nil => rfl
    | cons d ds => exact verbatim?_quote (hmore d rfl) ds
  induction cs using verbatim?.induct generalizing n with
  | case1 => cases h
  | case2 c hc =>
    obtain rfl : c = '"' := eq_of_beq hc
    exact ⟨['"'], [], rfl, Option.some.inj h, stops_nil, hone⟩
  | case3 c hc =>
    rw [verbatim?, if_neg hc] at h
    cases h
  | case4 c d cs hc hd ih =>
    obtain rfl : c = '"' := eq_of_beq hc
    obtain rfl : d = '"' := eq_of_beq hd
    rw [verbatim?_quotes] at h
    obtain ⟨m, hm, rfl⟩ := Option.map_eq_some_iff.mp h
    obtain ⟨w, rest, rfl, rfl, hrest, hw⟩ := ih hm
    refine ⟨'"' :: '"' :: w, rest, rfl, rfl, hrest, fun more hmore => ?_⟩
    rw [List.cons_append, List.cons_append, verbatim?_quotes, hw more hmore]
    rfl
  | case5 c d cs hc hd =>
    obtain rfl : c = '"' := eq_of_beq hc
    rw [verbatim?_quote (Bool.eq_false_iff.mpr hd)] at h
    refine ⟨['"'], d :: cs, rfl, Option.some.inj h, ?_, hone⟩
    rintro e ⟨rfl⟩
    exact Bool.eq_false_iff.mpr hd
  | case6 c d cs hc ih =>
    rw [verbatim?_cons (Bool.eq_false_iff.mpr hc)] at h
    obtain ⟨m, hm, rfl⟩ := Option.map_eq_some_iff.mp h
    obtain ⟨w, rest, hcs, rfl, hrest, hw⟩ := ih hm
    refine ⟨c :: w, rest, by rw [hcs]; rfl, rfl, hrest, fun more hmore => ?_⟩
    rw [List.cons_append, verbatim?_cons (Bool.eq_false_iff.mpr hc), hw more hmore]
    rfl

theorem exists_before? {pattern : List Char} (hpattern : pattern ≠ []) {cs : List Char} {n : Nat}
    (h : before? pattern cs = some n) :
    ∃ w rest, cs = w ++ rest ∧ w.length = n + pattern.length ∧
      ∀ more, before? pattern (w ++ more) = some n := by
  induction cs generalizing n with
  | nil =>
    rw [before?, if_neg (by simpa using hpattern)] at h
    cases h
  | cons c cs ih =>
    rw [before?] at h
    split at h
    · rename_i hprefix
      obtain rfl := Option.some.inj h
      obtain ⟨rest, hrest⟩ := List.isPrefixOf_iff_prefix.mp hprefix
      refine ⟨pattern, rest, hrest.symm, (Nat.zero_add _).symm, fun more => ?_⟩
      obtain ⟨d, ds, rfl⟩ := List.exists_cons_of_ne_nil hpattern
      rw [List.cons_append, before?, if_pos]
      exact List.isPrefixOf_iff_prefix.mpr (List.prefix_append (d :: ds) more)
    · rename_i hprefix
      obtain ⟨m, hm, rfl⟩ := Option.map_eq_some_iff.mp h
      obtain ⟨w, rest, rfl, hlength, hw⟩ := ih hm
      refine ⟨c :: w, rest, rfl, by rw [List.length_cons, hlength]; omega, fun more => ?_⟩
      rw [List.cons_append, before?, if_neg, hw more]
      · rfl
      · -- the pattern is not longer than `c :: w`
        intro hmore
        apply hprefix
        rw [List.isPrefixOf_iff_prefix, ← List.cons_append] at hmore ⊢
        have hshort : pattern <+: c :: w :=
          List.prefix_of_prefix_length_le hmore (List.prefix_append _ _) (by simp [hlength]; omega)
        exact hshort.trans (List.prefix_append _ _)

/-- A raw literal is closed by as many quotes as open it. -/
theorem exists_raw? {cs : List Char} {n : Nat} (h : raw? ('"' :: cs) = some n) :
    ∃ w rest, '"' :: cs = w ++ rest ∧ w.length = n ∧ run (· == '"') ('"' :: cs) ≤ w.length ∧
      Closes raw? w := by
  obtain ⟨quotes, body, hcs, hquotes, hbody, hrun⟩ := exists_run (· == '"') ('"' :: cs)
  have hdrop (more : List Char) : (quotes ++ more).drop quotes.length = more :=
    List.drop_left
  have hpattern : List.replicate quotes.length '"' ≠ [] := by
    intro hnil
    have hpos : 0 < run (· == '"') ('"' :: cs) := run_pos rfl
    rw [hrun] at hpos
    rw [List.replicate_eq_nil_iff] at hnil
    omega
  rw [raw?, hrun, hcs, hdrop] at h
  obtain ⟨m, hm, rfl⟩ := Option.map_eq_some_iff.mp h
  obtain ⟨w, rest, rfl, hlength, hw⟩ := exists_before? hpattern hm
  rw [List.length_replicate] at hlength
  have hw' : w ≠ [] := by
    rintro rfl
    have := List.length_pos_iff.mpr hpattern
    rw [List.length_nil] at hlength
    rw [List.length_replicate] at this
    omega
  refine ⟨quotes ++ w, rest, by rw [hcs, List.append_assoc], by simp [hlength]; omega,
    by simp [hrun], fun more => ?_⟩
  have hstops : Stops (· == '"') (w ++ more) := (stops_append hw').mpr ((stops_append hw').mp hbody)
  rw [raw?, List.append_assoc, run_append hquotes hstops, hdrop, hw more]
  simp [hlength]
  omega

/-- No name starts with a digit. -/
theorem isDigit_of_startsName {c : Char} (h : startsName c = true) : c.isDigit = false := by
  rw [Bool.eq_false_iff]
  intro hdigit
  simp only [Char.isDigit, Bool.and_eq_true, decide_eq_true_eq, UInt32.le_iff_toNat_le] at hdigit
  obtain ⟨hlow, hhigh⟩ := hdigit
  have hlow' : 48 ≤ c.toNat := hlow
  have hhigh' : c.toNat ≤ 57 := hhigh
  have hne : c ≠ '_' := by
    rintro rfl
    revert hhigh'
    decide
  have hletter : c.isAlpha = true := by
    simpa [startsName, hne, isLetter, Nat.lt_of_le_of_lt hhigh' (by decide : 57 < 128)] using h
  have hcases : (c.isUpper || c.isLower) = true := hletter
  have h65 : 65 ≤ c.toNat := by
    rcases Bool.or_eq_true_iff.mp hcases with hupper | hlower
    · exact UInt32.le_iff_toNat_le.mp (of_decide_eq_true hupper).1
    · have h97 : 'a'.val ≤ c.val := of_decide_eq_true (Bool.and_eq_true_iff.mp hlower).1
      exact Nat.le_trans (by decide : 65 ≤ 'a'.val.toNat) (UInt32.le_iff_toNat_le.mp h97)
  omega
theorem run_le (p : Char → Bool) (cs : List Char) : run p cs ≤ cs.length :=
  (List.takeWhile_sublist p).length_le

theorem digitsBehind_le (k : Nat) (cs : List Char) : digitsBehind k cs ≤ cs.length := by
  have hrun := run_le isDigitOrSeparator (cs.drop k)
  rw [List.length_drop] at hrun
  unfold digitsBehind
  split
  · rename_i hstarts
    have hne : cs.drop k ≠ [] := by
      intro hnil
      rw [hnil] at hstarts
      cases hstarts
    have hk := List.length_pos_iff.mpr hne
    rw [List.length_drop] at hk
    omega
  · exact Nat.zero_le _

theorem decimal_le (cs : List Char) : decimal cs ≤ cs.length := by
  have hexponent (ds : List Char) : exponent ds ≤ ds.length := by
    rw [exponent_eq, exponentDigitsBehind]
    split
    · split
      · exact digitsBehind_le 2 ds
      · exact digitsBehind_le 1 ds
    · exact Nat.zero_le _
  have hfraction (ds : List Char) : fraction ds ≤ ds.length := by
    rw [fraction_eq]
    split
    · exact digitsBehind_le 1 ds
    · exact Nat.zero_le _
  have hwhole := run_le isDigitOrSeparator cs
  have hpoint := hfraction (cs.drop (run isDigitOrSeparator cs))
  have hletter := hexponent (cs.drop (run isDigitOrSeparator cs +
    fraction (cs.drop (run isDigitOrSeparator cs))))
  rw [List.length_drop] at hpoint hletter
  unfold decimal
  dsimp only
  omega

theorem number_le (cs : List Char) : number cs ≤ cs.length := by
  have hdigits : unsuffixed cs ≤ cs.length := by
    rw [unsuffixed_eq]
    split
    · rename_i hhex
      have htwo : 2 ≤ cs.length := by
        obtain ⟨-, hletter⟩ := Bool.and_eq_true_iff.mp hhex
        rcases cs with _ | ⟨c, _ | ⟨d, ds⟩⟩
        · cases hletter
        · cases hletter
        · simp
      have hrun := run_le isHexDigitOrSeparator (cs.drop 2)
      rw [List.length_drop] at hrun
      omega
    · exact decimal_le cs
  have hsuffix := run_le isTypeSuffix (cs.drop (unsuffixed cs))
  rw [List.length_drop] at hsuffix
  unfold number
  dsimp only
  omega

end Extent

namespace Piece

open Extent

/-! ## The rules -/

/-- Trivia with the characters `w`, in front of `rest`; `line` tells whether a line starts here. -/
inductive TriviaAt (line : Bool) (rest : List Char) : TriviaKind → List Char → Prop
  | newline : TriviaAt line rest .endOfLine ['\n']
  | carriageNewline : TriviaAt line rest .endOfLine ['\r', '\n']
  | carriage : Stops (· == '\n') rest → TriviaAt line rest .whitespace ['\r']
  | lineComment {cs : List Char} : (∀ c ∈ cs, isInLine c = true) → Stops isInLine rest →
      TriviaAt line rest (lineCommentKind ('/' :: '/' :: cs)) ('/' :: '/' :: cs)
  | comment {n : Nat} {cs : List Char} : (∀ more, before? ['*', '/'] (cs ++ more) = some n) →
      cs.length = n + 2 → TriviaAt line rest .multiLineComment ('/' :: '*' :: cs)
  | blank {w : List Char} : w ≠ [] → (∀ c ∈ w, isSpace c = true) → Stops isSpace rest →
      TriviaAt line rest .whitespace w
  | directive {cs : List Char} : line = true → (∀ c ∈ cs, isInLine c = true) →
      Stops isInLine rest → TriviaAt line rest .preprocessorDirective ('#' :: cs)

/-- The kind of a name. -/
def wordKind (w : List Char) : TokenKind :=
  (Keyword.ofText? (String.ofList w)).elim .identifier .keyword

/-- Behind a punctuation no character comes that makes it a comment, a number or `?.`. -/
structure Alone (kind : TokenKind) (rest : List Char) : Prop where
  slash : kind = .slash → Stops (fun c => c == '/' || c == '*') rest
  dot : kind = .dot → Stops Char.isDigit rest
  question : kind = .question → ∀ cs, rest = '.' :: cs → cs.head?.any Char.isDigit = true

/-- A token with the characters `w`, in front of `rest`. -/
inductive TokenAt (rest : List Char) : TokenKind → List Char → Prop
  | verbatim {cs : List Char} :
      (∀ more, Stops (· == '"') more → verbatim? (cs ++ more) = some cs.length) →
      Stops (· == '"') rest → TokenAt rest .stringLiteral ('@' :: '"' :: cs)
  | raw {cs : List Char} : Closes raw? ('"' :: '"' :: '"' :: cs) →
      TokenAt rest .stringLiteral ('"' :: '"' :: '"' :: cs)
  | string {cs : List Char} : Closes (quoted? '"') cs →
      (∀ more, cs ++ rest ≠ '"' :: '"' :: more) → TokenAt rest .stringLiteral ('"' :: cs)
  | character {cs : List Char} : Closes (quoted? '\'') cs →
      TokenAt rest .charLiteral ('\'' :: cs)
  | number {c : Char} {cs : List Char} :
      (c.isDigit = true ∨ c = '.' ∧ cs.head?.any Char.isDigit = true) →
      Extent.number (c :: cs ++ rest) = cs.length + 1 → TokenAt rest .numericLiteral (c :: cs)
  | name {c : Char} {cs : List Char} : startsName c = true → (∀ d ∈ cs, continuesName d = true) →
      Stops continuesName rest → TokenAt rest (wordKind (c :: cs)) (c :: cs)
  | verbatimName {c : Char} {cs : List Char} : startsName c = true →
      (∀ d ∈ cs, continuesName d = true) → Stops continuesName rest →
      TokenAt rest (wordKind ('@' :: c :: cs)) ('@' :: c :: cs)
  | questionDot : Stops Char.isDigit rest → TokenAt rest .questionDot ['?', '.']
  | punctuation {kind : TokenKind} : punctuation? (spelling kind ++ rest) = some kind →
      Alone kind rest → TokenAt rest kind (spelling kind)

theorem TriviaAt.ne_nil {line : Bool} {rest w : List Char} {kind : TriviaKind}
    (h : TriviaAt line rest kind w) : w ≠ [] := by
  cases h with
  | blank hw _ _ => exact hw
  | _ => exact List.cons_ne_nil _ _

theorem TokenAt.ne_nil {rest w : List Char} {kind : TokenKind} (h : TokenAt rest kind w) :
    w ≠ [] := by
  cases h with
  | punctuation hfound _ => exact (punctuation_spelled kind (List.mem_of_find?_eq_some hfound)).2
  | _ => exact List.cons_ne_nil _ _

/-! ## From a step to a rule -/

variable {c c' : Cursor} {ps : List Piece} {code : Nat → Cursor → Reading}

/-- The step reads the characters `w` by a rule. -/
structure Ruled (c : Cursor) (ps : List Piece) (c' : Cursor) (w rest : List Char) : Prop where
  split : c.rest = w ++ rest
  rule : (∃ kind, TriviaAt c.atLineStart rest kind w ∧ (ps, c') = c.trivia kind w.length) ∨
    ∃ kind, TokenAt rest kind w ∧ (ps, c') = c.token kind w.length

variable {w rest : List Char}

theorem ruled_trivia {kind : TriviaKind} {n : Nat}
    (h : Except.ok (c.trivia kind n) = (.ok (ps, c') : Reading)) (hrest : c.rest = w ++ rest)
    (hn : n = w.length) (hrule : TriviaAt c.atLineStart rest kind w) :
    ∃ w rest, Ruled c ps c' w rest :=
  ⟨w, rest, hrest, .inl ⟨kind, hrule, hn ▸ (Except.ok.inj h).symm⟩⟩

theorem ruled_token {kind : TokenKind} {n : Nat}
    (h : Except.ok (c.token kind n) = (.ok (ps, c') : Reading)) (hrest : c.rest = w ++ rest)
    (hn : n = w.length) (hrule : TokenAt rest kind w) : ∃ w rest, Ruled c ps c' w rest :=
  ⟨w, rest, hrest, .inr ⟨kind, hrule, hn ▸ (Except.ok.inj h).symm⟩⟩

theorem taken_eq (hrest : c.rest = w ++ rest) : c.taken w.length = String.ofList w := by
  rw [Cursor.taken, hrest, List.take_left]

theorem lineCommentKind_eq (cs : List Char) : lineCommentKind ('/' :: '/' :: cs) =
    if starts (· == '/') cs && !starts (· == '/') (cs.drop 1) then .docComment
    else .singleLineComment := by
  rcases cs with _ | ⟨a, _ | ⟨b, cs⟩⟩
  · rfl
  · by_cases ha : a = '/' <;> simp [lineCommentKind, starts, ha]
  · by_cases ha : a = '/' <;> by_cases hb : b = '/' <;> simp [lineCommentKind, starts, ha, hb]

/-- The end of the line does not change what kind of comment stands there. -/
theorem lineCommentKind_append {cs : List Char} (hrest : Stops isInLine rest) :
    lineCommentKind ('/' :: '/' :: cs ++ rest) = lineCommentKind ('/' :: '/' :: cs) := by
  have hslash : rest.head?.any (· == '/') = false := by
    cases rest with
    | nil => rfl
    | cons d ds =>
      have hd : d ≠ '/' := by
        rintro rfl
        exact absurd (hrest '/' rfl) (by decide)
      simpa using hd
  rw [List.cons_append, List.cons_append, lineCommentKind_eq, lineCommentKind_eq]
  rcases cs with _ | ⟨a, _ | ⟨b, cs⟩⟩
  · simp [hslash, starts]
  · simp [hslash, starts]
  · rfl

theorem ruled_word (h : Except.ok (word c w.length) = (.ok (ps, c') : Reading))
    (hrest : c.rest = w ++ rest) (hrule : TokenAt rest (wordKind w) w) :
    ∃ w rest, Ruled c ps c' w rest := by
  refine ruled_token h hrest rfl ?_
  rwa [taken_eq hrest]

theorem ruled_number {ch : Char} {cs : List Char} (hch : c.rest = ch :: cs)
    (hfirst : ch.isDigit = true ∨ ch = '.' ∧ cs.head?.any Char.isDigit = true)
    (h : Except.ok (c.token .numericLiteral (Extent.number c.rest)) = (.ok (ps, c') : Reading)) :
    ∃ w rest, Ruled c ps c' w rest := by
  let n := Extent.number c.rest
  have hsplit : c.rest = c.rest.take n ++ c.rest.drop n := (List.take_append_drop _ _).symm
  have hlength : (c.rest.take n).length = n := List.length_take_of_le (number_le c.rest)
  have hpos : 0 < n := by
    show 0 < Extent.number c.rest
    rw [hch]
    rcases hfirst with hdigit | ⟨rfl, hdigit⟩
    · exact number_pos_of_digit hdigit
    · cases cs with
      | nil => cases hdigit
      | cons d ds =>
        exact Nat.lt_of_lt_of_le Nat.two_pos (two_le_number_of_point (by simpa using hdigit))
  obtain ⟨m, hm⟩ : ∃ m, n = m + 1 := ⟨n - 1, by omega⟩
  have htake : c.rest.take n = ch :: cs.take m := by rw [hm, hch, List.take_succ_cons]
  rw [htake] at hsplit hlength
  refine ruled_token h hsplit hlength.symm (.number ?_ ?_)
  · refine hfirst.imp_right fun ⟨hpoint, hdigit⟩ => ⟨hpoint, ?_⟩
    -- a number that starts with a point has a digit behind it
    cases cs with
    | nil => cases hdigit
    | cons d ds =>
      cases m with
      | succ m => simpa using hdigit
      | zero =>
        exfalso
        have hdigits : d.isDigit = true := by simpa using hdigit
        have htwo : 2 ≤ Extent.number ('.' :: d :: ds) := two_le_number_of_point hdigits
        have hone : Extent.number c.rest = 1 := hm
        rw [hch, hpoint] at hone
        omega
  · rw [← hsplit]
    exact hlength.symm

theorem ruled_plain {ch : Char} {cs : List Char} (hch : c.rest = ch :: cs)
    (hslash : ch = '/' → Stops (fun d => d == '/' || d == '*') cs)
    (h : plain c ch cs = .ok (ps, c')) : ∃ w rest, Ruled c ps c' w rest := by
  unfold plain at h
  split at h
  · rename_i hdigit
    exact ruled_number hch (.inl hdigit) h
  split at h
  · rename_i hpoint
    rw [Bool.and_eq_true, beq_iff_eq] at hpoint
    exact ruled_number hch (.inr hpoint) h
  split at h
  · rename_i hname
    obtain ⟨v, rest, rfl, hv, hrest, hrun⟩ := exists_run continuesName cs
    have hsplit : c.rest = (ch :: v) ++ rest := hch
    have hlength : run continuesName c.rest = (ch :: v).length := by
      rw [hch, run_cons, if_pos (continuesName_of_startsName hname), hrun]
      rfl
    rw [hlength] at h
    exact ruled_word h hsplit (.name hname hv hrest)
  split at h
  · rename_i hat
    rw [Bool.and_eq_true, beq_iff_eq] at hat
    obtain ⟨rfl, hname⟩ := hat
    cases cs with
    | nil => cases hname
    | cons d ds =>
      obtain ⟨v, rest, rfl, hv, hrest, hrun⟩ := exists_run continuesName ds
      have hd : startsName d = true := by simpa using hname
      have hsplit : c.rest = ('@' :: d :: v) ++ rest := hch
      have hlength : 1 + run continuesName (d :: (v ++ rest)) = ('@' :: d :: v).length := by
        rw [run_cons, if_pos (continuesName_of_startsName hd), hrun, List.length_cons,
          List.length_cons]
        omega
      rw [hlength] at h
      exact ruled_word h hsplit (.verbatimName hd hv hrest)
  split at h
  · rename_i hquestion
    rw [Bool.and_eq_true, Bool.and_eq_true, beq_iff_eq, beq_iff_eq, Bool.not_eq_true'] at hquestion
    obtain ⟨⟨rfl, hdot⟩, hdigit⟩ := hquestion
    obtain ⟨ds, rfl⟩ := List.head?_eq_some_iff.mp hdot
    refine ruled_token h hch rfl (.questionDot ?_) (w := ['?', '.'])
    intro d hd
    rw [List.drop_one, List.tail_cons, hd] at hdigit
    simpa using hdigit
  · rename_i hdigit hpoint _ _ hquestion
    unfold punctuationAt at h
    split at h
    · rename_i kind hkind
      have hprefix : spelling kind <+: c.rest := by simpa using List.find?_some hkind
      obtain ⟨rest, hrest⟩ := hprefix
      rw [hrest.symm] at hkind
      refine ruled_token h hrest.symm rfl (.punctuation hkind ⟨?_, ?_, ?_⟩)
      · rintro rfl
        obtain ⟨rfl, rfl⟩ := List.cons.inj ((hch ▸ hrest : ['/'] ++ rest = ch :: cs))
        exact hslash rfl
      · rintro rfl d hd
        obtain ⟨rfl, rfl⟩ := List.cons.inj ((hch ▸ hrest : ['.'] ++ rest = ch :: cs))
        rw [Option.mem_def] at hd
        simpa [hd] using hpoint
      · rintro rfl ds rfl
        obtain ⟨rfl, rfl⟩ := List.cons.inj ((hch ▸ hrest : ['?'] ++ '.' :: ds = ch :: cs))
        simpa using hquestion
    · cases h

/-- What a step reads without a `$` is read by a rule. -/
theorem exists_rule (hdollar : '$' ∉ c.rest) (hrest : c.rest ≠ [])
    (h : next code c = .ok (ps, c')) : ∃ w rest, Ruled c ps c' w rest := by
  unfold next at h
  split at h <;> rename_i hch
  case h_1 => exact absurd hch hrest
  case h_2 => exact ruled_trivia (w := ['\n']) h hch rfl .newline
  case h_3 => exact ruled_trivia (w := ['\r', '\n']) h hch rfl .carriageNewline
  case h_4 cs hnewline =>
    refine ruled_trivia (w := ['\r']) h hch rfl (.carriage fun d hd => ?_)
    rw [beq_eq_false_iff_ne]
    rintro rfl
    obtain ⟨ds, rfl⟩ := List.head?_eq_some_iff.mp hd
    exact hnewline ds rfl
  case h_5 cs =>
    obtain ⟨v, rest, rfl, hv, hstops, hrun⟩ := exists_run isInLine cs
    have hsplit : c.rest = ('/' :: '/' :: v) ++ rest := hch
    have hlength : run isInLine c.rest = ('/' :: '/' :: v).length := by
      rw [hch, run_cons, if_pos (by decide), run_cons, if_pos (by decide), hrun]
      rfl
    rw [hlength, hsplit, lineCommentKind_append hstops] at h
    exact ruled_trivia h hsplit rfl (.lineComment hv hstops)
  case h_6 cs =>
    split at h
    · rename_i n hn
      obtain ⟨v, rest, rfl, hlength, hv⟩ := exists_before? (List.cons_ne_nil _ _) hn
      have hsplit : c.rest = ('/' :: '*' :: v) ++ rest := hch
      refine ruled_trivia h hsplit ?_ (.comment hv hlength)
      rw [List.length_cons, List.length_cons, hlength]
      rfl
    · cases h
  case h_7 => exact absurd (hch ▸ by simp) hdollar
  case h_8 => exact absurd (hch ▸ by simp) hdollar
  case h_9 => exact absurd (hch ▸ by simp) hdollar
  case h_10 cs =>
    cases hfound : verbatim? cs with
    | none =>
      rw [hfound] at h
      cases h
    | some n =>
      obtain ⟨v, rest, rfl, rfl, hstops, hv⟩ := exists_verbatim? hfound
      have hsplit : c.rest = ('@' :: '"' :: v) ++ rest := hch
      rw [hfound] at h
      exact ruled_token h hsplit rfl (.verbatim hv hstops)
  case h_11 cs =>
    cases hfound : raw? c.rest with
    | none =>
      rw [hfound] at h
      cases h
    | some n =>
      rw [hfound] at h
      rw [hch] at hfound
      obtain ⟨w, rest, hw, rfl, hle, hcloses⟩ := exists_raw? hfound
      have hthree : 3 ≤ w.length := by
        refine Nat.le_trans ?_ hle
        simp [run_cons]
      rcases w with _ | ⟨q, _ | ⟨r, _ | ⟨s, v⟩⟩⟩
      · cases hthree
      · simp at hthree
      · simp at hthree
      · simp only [List.cons_append, List.cons.injEq] at hw
        obtain ⟨rfl, rfl, rfl, rfl⟩ := hw
        exact ruled_token h hch rfl (.raw hcloses) (w := '"' :: '"' :: '"' :: v)
  case h_12 cs hraw =>
    cases hfound : quoted? '"' cs with
    | none =>
      rw [hfound] at h
      cases h
    | some n =>
      obtain ⟨v, rest, rfl, rfl, hv⟩ := exists_quoted? (by decide) (by decide) hfound
      have hsplit : c.rest = ('"' :: v) ++ rest := hch
      rw [hfound] at h
      refine ruled_token h hsplit rfl (.string hv hraw)
  case h_13 cs =>
    cases hfound : quoted? '\'' cs with
    | none =>
      rw [hfound] at h
      cases h
    | some n =>
      obtain ⟨v, rest, rfl, rfl, hv⟩ := exists_quoted? (by decide) (by decide) hfound
      have hsplit : c.rest = ('\'' :: v) ++ rest := hch
      rw [hfound] at h
      exact ruled_token h hsplit rfl (.character hv)
  case h_14 ch cs _ _ _ hline hblock _ _ _ _ _ _ _ =>
    split at h
    · rename_i hspace
      obtain ⟨v, rest, rfl, hv, hstops, hrun⟩ := exists_run isSpace cs
      have hsplit : c.rest = (ch :: v) ++ rest := hch
      have hlength : run isSpace c.rest = (ch :: v).length := by
        rw [hch, run_cons, if_pos hspace, hrun]
        rfl
      rw [hlength] at h
      exact ruled_trivia h hsplit rfl
        (.blank (List.cons_ne_nil _ _) (List.forall_mem_cons.mpr ⟨hspace, hv⟩) hstops)
    split at h
    · rename_i hhash
      rw [Bool.and_eq_true, beq_iff_eq] at hhash
      obtain ⟨rfl, hstart⟩ := hhash
      obtain ⟨v, rest, rfl, hv, hstops, hrun⟩ := exists_run isInLine cs
      have hsplit : c.rest = ('#' :: v) ++ rest := hch
      have hlength : run isInLine c.rest = ('#' :: v).length := by
        rw [hch, run_cons, if_pos (by decide), hrun]
        rfl
      rw [hlength] at h
      exact ruled_trivia h hsplit rfl (.directive hstart hv hstops)
    · refine ruled_plain hch ?_ h
      rintro rfl d hd
      obtain ⟨ds, rfl⟩ := List.head?_eq_some_iff.mp hd
      rw [Bool.or_eq_false_iff, beq_eq_false_iff_ne, beq_eq_false_iff_ne]
      constructor
      · rintro rfl
        exact hline ds rfl rfl
      · rintro rfl
        exact hblock ds rfl rfl

/-! ## From a rule to a step -/

theorem notMem_of_any {p : Char → Bool} {ch : Char} {ds : List Char} (hch : p ch = true)
    (hds : ds.any p = false) : ch ∉ ds := by
  rw [List.any_eq_false] at hds
  exact fun hmem => hds ch hmem hch

/-- A step at a character that is not treated on its own. -/
theorem next_ordinary {ch : Char} {cs : List Char} (hch : c.rest = ch :: cs)
    (hspecial : ch ∉ ['\n', '\r', '$', '"', '\''])
    (hslash : ch = '/' → Stops (fun d => d == '/' || d == '*') cs)
    (hat : ch = '@' → Stops (fun d => d == '$' || d == '"') cs) :
    next code c = if isSpace ch then .ok (c.trivia .whitespace (run isSpace c.rest))
      else if ch == '#' && c.atLineStart then
        .ok (c.trivia .preprocessorDirective (run isInLine c.rest))
      else plain c ch cs := by
  have hslash' (d : Char) (ds : List Char) (hd : (d == '/' || d == '*') = true) :
      ch :: cs ≠ '/' :: d :: ds := by
    intro heq
    obtain ⟨rfl, rfl⟩ := List.cons.inj heq
    exact Bool.eq_false_iff.mp (hslash rfl d rfl) hd
  have hat' (d : Char) (ds : List Char) (hd : (d == '$' || d == '"') = true) :
      ch :: cs ≠ '@' :: d :: ds := by
    intro heq
    obtain ⟨rfl, rfl⟩ := List.cons.inj heq
    exact Bool.eq_false_iff.mp (hat rfl d rfl) hd
  have hspecial' (d : Char) (ds : List Char) (hd : d ∈ ['\n', '\r', '$', '"', '\'']) :
      ch :: cs ≠ d :: ds := by
    intro heq
    obtain ⟨rfl, -⟩ := List.cons.inj heq
    exact hspecial hd
  unfold next
  split <;> rename_i heq <;> rw [hch] at heq
  case h_1 => cases heq
  case h_5 | h_6 => exact absurd heq (hslash' _ _ rfl)
  case h_9 | h_10 => exact absurd heq (hat' _ _ rfl)
  case h_14 =>
    obtain ⟨rfl, rfl⟩ := List.cons.inj heq
    rfl
  all_goals exact absurd heq (hspecial' _ _ (by decide))

theorem next_of_triviaAt {kind : TriviaKind} (h : TriviaAt c.atLineStart rest kind w)
    (hrest : c.rest = w ++ rest) : next code c = .ok (c.trivia kind w.length) := by
  cases h with
  | newline =>
    unfold next
    rw [hrest]
    rfl
  | carriageNewline =>
    unfold next
    rw [hrest]
    rfl
  | carriage hstops =>
    cases rest with
    | nil =>
      unfold next
      rw [hrest]
      rfl
    | cons d ds =>
      have hd : d ≠ '\n' := by simpa using hstops d rfl
      simp [next, hrest, hd]
  | @lineComment cs hcs hstops =>
    have hall : ∀ d ∈ '/' :: '/' :: cs, isInLine d = true :=
      List.forall_mem_cons.mpr ⟨by decide, List.forall_mem_cons.mpr ⟨by decide, hcs⟩⟩
    rw [← lineCommentKind_append hstops, ← run_append hall hstops, ← hrest]
    unfold next
    rw [hrest]
    rfl
  | @comment n cs hclosed hlength =>
    unfold next
    rw [hrest]
    simp only [List.cons_append, hclosed rest, List.length_cons, hlength]
  | blank hne hw hstops =>
    obtain ⟨ch, cs, rfl⟩ := List.exists_cons_of_ne_nil hne
    have hspace := hw ch List.mem_cons_self
    have hrun := run_append hw hstops
    rw [← hrest] at hrun
    rw [next_ordinary hrest (notMem_of_any hspace (by decide)), if_pos hspace, hrun]
    · rintro rfl
      cases hspace
    · rintro rfl
      cases hspace
  | @directive cs hline hcs hstops =>
    have hall : ∀ d ∈ '#' :: cs, isInLine d = true := List.forall_mem_cons.mpr ⟨by decide, hcs⟩
    have hrun := run_append hall hstops
    rw [← hrest] at hrun
    rw [next_ordinary hrest (by decide) nofun nofun, if_neg (by decide), hline, hrun]
    rfl

/-- Characters at which no plain token starts, or only one that has to be told from others. -/
def marks : List Char := ['\n', '\r', '$', '"', '\'', ' ', '\t', '#', '/', '@']

/-- A step at a character that starts a plain token. -/
theorem next_plain {ch : Char} {cs : List Char} (hch : c.rest = ch :: cs) (hmarks : ch ∉ marks) :
    next code c = plain c ch cs := by
  simp only [marks, List.mem_cons, List.not_mem_nil, not_or] at hmarks
  obtain ⟨h1, h2, h3, h4, h5, h6, h7, h8, h9, h10, -⟩ := hmarks
  rw [next_ordinary hch (by simp [h1, h2, h3, h4, h5]) (fun h => absurd h h9)
    (fun h => absurd h h10)]
  simp [isSpace, h6, h7, h8]

/-- Where a punctuation starts, neither a number nor a name does, and none of the marks stands but the
slash. -/
theorem punctuation_head : ∀ kind ∈ punctuation, ∀ ch ∈ (spelling kind).head?,
    ch ∉ marks.erase '/' ∧ ch.isDigit = false ∧ startsName ch = false := by
  have hall : ∀ kind ∈ punctuation, (spelling kind).head?.all (fun ch =>
      decide (ch ∉ marks.erase '/' ∧ ch.isDigit = false ∧ startsName ch = false)) = true := by
    decide
  intro kind hkind ch hch
  have hfirst := hall kind hkind
  rw [Option.mem_def.mp hch, Option.all_some] at hfirst
  exact of_decide_eq_true hfirst

/-- The punctuation that shares its first character with a comment, a number or `?.`. -/
theorem punctuation_shared : ∀ kind ∈ punctuation,
    ((spelling kind).head? = some '/' → kind = .slash ∨ spelling kind = ['/', '=']) ∧
    ((spelling kind).head? = some '.' → kind = .dot) ∧
    ((spelling kind).head? = some '?' → kind = .question ∨
      spelling kind = ['?', '?'] ∨ spelling kind = ['?', '?', '=']) := by
  decide

theorem next_punctuation {kind : TokenKind} (hfound : punctuation? (spelling kind ++ rest) = some kind)
    (halone : Alone kind rest) (hrest : c.rest = spelling kind ++ rest) :
    next code c = .ok (c.token kind (spelling kind).length) := by
  have hkind : kind ∈ punctuation := List.mem_of_find?_eq_some hfound
  obtain ⟨ch, v, hspelling⟩ := List.exists_cons_of_ne_nil (punctuation_spelled kind hkind).2
  have hhead : (spelling kind).head? = some ch := by rw [hspelling]; rfl
  obtain ⟨hmarks, hdigit, hname⟩ := punctuation_head kind hkind ch hhead
  have hne (d : Char) (hd : d ∈ marks.erase '/') : ch ≠ d := fun heq => hmarks (heq ▸ hd)
  obtain ⟨hslash, hdot, hquestion⟩ := punctuation_shared kind hkind
  rw [hhead] at hslash hdot hquestion
  have hcomment : ch = '/' → Stops (fun d => d == '/' || d == '*') (v ++ rest) := by
    rintro rfl
    rcases hslash rfl with rfl | hequals
    · obtain rfl : [] = v := (List.cons.inj hspelling).2
      exact halone.slash rfl
    · obtain rfl := (List.cons.inj (hspelling.symm.trans hequals)).2
      rintro d ⟨rfl⟩
      rfl
  have hpoint : ¬ (ch == '.' && (v ++ rest).head?.any Char.isDigit) = true := by
    rw [Bool.and_eq_true, beq_iff_eq]
    rintro ⟨rfl, hany⟩
    obtain rfl := hdot rfl
    obtain rfl : [] = v := (List.cons.inj hspelling).2
    obtain ⟨d, hd, hdigit⟩ := (Option.any_eq_true _ _).mp hany
    rw [halone.dot rfl d hd] at hdigit
    cases hdigit
  have hsafe : ¬ (ch == '?' && (v ++ rest).head? == some '.' &&
      !((v ++ rest).drop 1).head?.any Char.isDigit) = true := by
    rw [Bool.and_eq_true, Bool.and_eq_true, beq_iff_eq, beq_iff_eq, Bool.not_eq_true']
    rintro ⟨⟨rfl, hnext⟩, hany⟩
    rcases hquestion rfl with rfl | htwo | hthree
    · obtain rfl : [] = v := (List.cons.inj hspelling).2
      obtain ⟨ds, hds⟩ := List.head?_eq_some_iff.mp hnext
      rw [hds, List.drop_one, List.tail_cons, halone.question rfl ds hds] at hany
      cases hany
    · obtain rfl := (List.cons.inj (hspelling.symm.trans htwo)).2
      cases hnext
    · obtain rfl := (List.cons.inj (hspelling.symm.trans hthree)).2
      cases hnext
  have hspace : ¬ isSpace ch = true := by
    simp [isSpace, hne ' ' (by decide), hne '\t' (by decide)]
  have hhash : ¬ (ch == '#' && c.atLineStart) = true := by simp [hne '#' (by decide)]
  have hat : ¬ (ch == '@' && (v ++ rest).head?.any startsName) = true := by
    simp [hne '@' (by decide)]
  have hch : c.rest = ch :: (v ++ rest) := by rw [hrest, hspelling]; rfl
  rw [next_ordinary hch ?_ hcomment fun heq => absurd heq (hne '@' (by decide)), if_neg hspace,
    if_neg hhash, plain, if_neg (by simp [hdigit]), if_neg hpoint, if_neg (by simp [hname]),
    if_neg hat, if_neg hsafe, punctuationAt, hrest, hfound]
  exact fun hmem => hmarks (List.mem_append_left [' ', '\t', '#', '@'] hmem)

theorem next_of_tokenAt {kind : TokenKind} (h : TokenAt rest kind w)
    (hrest : c.rest = w ++ rest) : next code c = .ok (c.token kind w.length) := by
  cases h with
  | @verbatim cs hclosed hstops =>
    unfold next
    rw [hrest]
    show literal c _ _ ((verbatim? (cs ++ rest)).map (· + 2)) = _
    rw [hclosed rest hstops]
    rfl
  | raw hclosed =>
    unfold next
    rw [hrest, hclosed rest]
    rfl
  | @string cs hclosed hraw =>
    have hquote : c.rest = '"' :: (cs ++ rest) := hrest
    rw [next_quote hquote hraw, hclosed rest]
    rfl
  | @character cs hclosed =>
    unfold next
    rw [hrest]
    show literal c _ _ ((quoted? '\'' (cs ++ rest)).map (· + 1)) = _
    rw [hclosed rest]
    rfl
  | @number ch cs hfirst hnumber =>
    have hlength : Extent.number c.rest = (ch :: cs).length := by rw [hrest, hnumber]; rfl
    rcases hfirst with hdigit | ⟨rfl, hdigit⟩
    · rw [next_plain hrest (notMem_of_any hdigit (by decide)), plain, if_pos hdigit, hlength]
    · have hpoint : ('.' == '.' && (cs ++ rest).head?.any Char.isDigit) = true := by
        cases cs with
        | nil => cases hdigit
        | cons d ds => exact hdigit
      rw [next_plain hrest (by decide)]
      show plain c '.' (cs ++ rest) = _
      rw [plain, if_neg (by decide), if_pos hpoint, hlength]
  | @name ch cs hch hcs hstops =>
    have hall : ∀ d ∈ ch :: cs, continuesName d = true :=
      List.forall_mem_cons.mpr ⟨continuesName_of_startsName hch, hcs⟩
    have hlength := run_append hall hstops
    rw [← hrest] at hlength
    have hdigit := isDigit_of_startsName hch
    have hpoint : (ch == '.') = false := by
      rw [beq_eq_false_iff_ne]
      rintro rfl
      cases hch
    rw [next_plain hrest (notMem_of_any hch (by decide)), plain, hdigit, hpoint, if_neg (by decide),
      Bool.false_and, if_neg (by decide), if_pos hch, hlength, word, taken_eq hrest]
    rfl
  | @verbatimName ch cs hch hcs hstops =>
    have hall : ∀ d ∈ ch :: cs, continuesName d = true :=
      List.forall_mem_cons.mpr ⟨continuesName_of_startsName hch, hcs⟩
    have hlength : 1 + run continuesName (ch :: cs ++ rest) = ('@' :: ch :: cs).length := by
      rw [run_append hall hstops, Nat.add_comm]
      rfl
    have hname : ('@' == '@' && (ch :: cs ++ rest).head?.any startsName) = true := by simpa using hch
    have hquote : '@' = '@' → Stops (fun d => d == '$' || d == '"') (ch :: cs ++ rest) := by
      rintro - d ⟨rfl⟩
      rw [Bool.eq_false_iff]
      have hother : ch ∉ ['$', '"'] := notMem_of_any hch (by decide)
      exact fun hd => hother (by simpa using hd)
    rw [next_ordinary hrest (by decide) nofun hquote, if_neg (by decide), if_neg (by simp)]
    show plain c '@' (ch :: cs ++ rest) = _
    rw [plain, if_neg (by decide), if_neg (by simp), if_neg (by decide), if_pos hname, hlength,
      word, taken_eq hrest]
    rfl
  | questionDot hstops =>
    have hdot : ('?' == '?' && ('.' :: rest).head? == some '.' &&
        !(List.drop 1 ('.' :: rest)).head?.any Char.isDigit) = true := by
      cases rest with
      | nil => rfl
      | cons d ds =>
        have hd : d.isDigit = false := hstops d rfl
        simp [hd]
    rw [next_plain hrest (by decide)]
    show plain c '?' ('.' :: rest) = _
    rw [plain, if_neg (by decide), if_neg (by simp), if_neg (by decide), if_neg (by simp),
      if_pos hdot]
    rfl
  | punctuation hfound halone => exact next_punctuation hfound halone hrest

end Piece

end SharpLint
