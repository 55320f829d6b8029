import SharpLint.Lexeme.Extent
import SharpLint.Lexeme.Hole
import SharpLint.Text.Bytes

/-!
# Searches over bytes

A search that looks for ASCII characters only may go over the bytes of a text instead of its characters,
even where it steps into the middle of a character: no byte of a longer encoding is an ASCII character. It
finds the same places, which are therefore boundaries of characters:

    Hole.scan? (asBytes cs)         = (Hole.scan? cs).map (inBytes cs)         (scan?_asBytes)
    Extent.verbatim? (asBytes cs)   = (Extent.verbatim? cs).map (bytesTo cs)   (verbatim?_asBytes)
    Extent.number (asBytes cs)      = Extent.number cs                         (sameOver_number)

The search of a hole skips one byte after a backslash, so that it may go on inside a character.
-/

namespace SharpLint

/-- The bytes of a character, each as a character of its own. -/
def byteChars (c : Char) : List Char := (String.utf8EncodeChar c).map Char.ofUInt8

/-- The bytes of a text, each as a character of its own. -/
def asBytes (cs : List Char) : List Char := cs.flatMap byteChars

/-- Bytes before the character at index `n`. -/
def bytesTo (cs : List Char) (n : Nat) : Nat := byteLength (cs.take n)

/-- Characters whose encoding takes one byte. -/
def IsAscii (c : Char) : Prop := c.toNat < 128

instance : DecidablePred IsAscii := fun c => inferInstanceAs (Decidable (c.toNat < 128))

/-! ## Encodings -/

theorem length_byteChars (c : Char) : (byteChars c).length = c.utf8Size := by
  rw [byteChars, List.length_map, String.length_utf8EncodeChar]

theorem utf8Size_of_ascii {c : Char} (hc : IsAscii c) : c.utf8Size = 1 := by
  rw [Char.utf8Size_eq_one_iff, UInt32.le_iff_toNat_le]
  exact Nat.le_of_lt_succ hc

theorem byteChars_of_ascii {c : Char} (hc : IsAscii c) : byteChars c = [c] := by
  have hbyte : Char.ofUInt8 c.val.toUInt8 = c := by
    apply Char.ext
    apply UInt32.toNat_inj.mp
    show c.val.toUInt8.toUInt32.toNat = c.val.toNat
    rw [UInt8.toNat_toUInt32, UInt32.toNat_toUInt8]
    exact Nat.mod_eq_of_lt (Nat.lt_trans hc (by decide))
  rw [byteChars, String.utf8EncodeChar_eq_singleton (utf8Size_of_ascii hc), List.map_singleton, hbyte]

theorem not_ascii_byteChars {c : Char} (hc : ¬ IsAscii c) : ∀ b ∈ byteChars c, ¬ IsAscii b := by
  have hle : ¬ c.val.toNat ≤ 127 := fun hle => hc (Nat.lt_succ_of_le hle)
  have hwide (n : Nat) (hn : 128 ≤ n % 256) : ¬ IsAscii (Char.ofUInt8 (UInt8.ofNat n)) := by
    show ¬ (UInt8.ofNat n).toUInt32.toNat < 128
    simp
    omega
  simp only [byteChars, String.utf8EncodeChar, if_neg hle]
  split
  · simp only [List.map_cons, List.map_nil, List.forall_mem_cons, List.not_mem_nil]
    exact ⟨hwide _ (by omega), hwide _ (by omega), nofun⟩
  split
  · simp only [List.map_cons, List.map_nil, List.forall_mem_cons, List.not_mem_nil]
    exact ⟨hwide _ (by omega), hwide _ (by omega), hwide _ (by omega), nofun⟩
  · simp only [List.map_cons, List.map_nil, List.forall_mem_cons, List.not_mem_nil]
    exact ⟨hwide _ (by omega), hwide _ (by omega), hwide _ (by omega), hwide _ (by omega), nofun⟩

theorem byteChars_ne_nil (c : Char) : byteChars c ≠ [] := by
  have hpos := c.utf8Size_pos
  rw [← length_byteChars] at hpos
  exact List.length_pos_iff.mp hpos

@[simp] theorem asBytes_cons (c : Char) (cs : List Char) :
    asBytes (c :: cs) = byteChars c ++ asBytes cs := rfl

theorem asBytes_ascii {c : Char} (hc : IsAscii c) (cs : List Char) :
    asBytes (c :: cs) = c :: asBytes cs := by
  rw [asBytes_cons, byteChars_of_ascii hc, List.singleton_append]

theorem bytesTo_succ {cs ds : List Char} {c : Char} {n : Nat} (h : cs.drop n = c :: ds) :
    bytesTo cs (n + 1) = bytesTo cs n + c.utf8Size := by
  have hget : cs[n]? = some c := by rw [← List.head?_drop, h, List.head?_cons]
  rw [bytesTo, bytesTo, List.take_add_one, hget, byteLength_append]
  rfl

theorem drop_succ {cs ds : List Char} {c : Char} {n : Nat} (h : cs.drop n = c :: ds) :
    cs.drop (n + 1) = ds := by
  rw [← List.drop_drop, h, List.drop_one, List.tail_cons]

/-- No ASCII character is a character with a longer encoding. -/
theorem beq_ascii {c d : Char} (hc : ¬ IsAscii c) (hd : IsAscii d) : (c == d) = false :=
  beq_false_of_ne fun heq => hc (heq ▸ hd)

/-! ## Holes -/

namespace Hole

/-- The hole with its distances in bytes. -/
def inBytes (cs : List Char) (h : Hole) : Hole :=
  ⟨h.comma.map (bytesTo cs), h.colon.map (bytesTo cs), bytesTo cs h.close⟩

/-- Where the search stands behind a character that is not ASCII. -/
def Place.behind : Place → Place
  | .code => .code
  | .literal q | .escaped q => .literal q

/-- Literals have ASCII quotes. -/
def Place.Ascii : Place → Prop
  | .code => True
  | .literal q | .escaped q => IsAscii q

variable {cs text : List Char} {n depth : Nat} {comma : Option Nat} {place : Place}

theorem scanFrom_wide {c : Char} (hc : ¬ IsAscii c) (hplace : place.Ascii) :
    scanFrom n depth comma place (c :: cs) = scanFrom (n + 1) depth comma place.behind cs := by
  have hne {d : Char} (hd : IsAscii d) : (c == d) = false := beq_ascii hc hd
  cases place with
  | escaped q => rfl
  | literal q =>
    rw [scanFrom, hne hplace, hne (by decide : IsAscii '\\')]
    rfl
  | code =>
    rw [scanFrom, hne (by decide : IsAscii '('), hne (by decide : IsAscii '['),
      hne (by decide : IsAscii '\x7b'), hne (by decide : IsAscii ')'), hne (by decide : IsAscii ']'),
      hne (by decide : IsAscii '\x7d'), hne (by decide : IsAscii ','), hne (by decide : IsAscii ':'),
      hne (by decide : IsAscii '"'), hne (by decide : IsAscii '\''), hne (by decide : IsAscii '\n')]
    rfl

theorem scanFrom_wides {bs : List Char} (hbs : ∀ b ∈ bs, ¬ IsAscii b) (hne : bs ≠ [])
    (hplace : place.Ascii) :
    scanFrom n depth comma place (bs ++ cs) = scanFrom (n + bs.length) depth comma place.behind cs := by
  induction bs generalizing n place with
  | nil => exact absurd rfl hne
  | cons b bs ih =>
    obtain ⟨hb, hbs⟩ := List.forall_mem_cons.mp hbs
    rw [List.cons_append, scanFrom_wide hb hplace]
    by_cases hmore : bs = []
    · rw [hmore]
      rfl
    · have hbehind : place.behind.Ascii ∧ place.behind.behind = place.behind := by
        cases place <;> exact ⟨hplace, rfl⟩
      rw [ih hbs hmore hbehind.1, hbehind.2, List.length_cons, Nat.add_assoc, Nat.add_comm 1]

theorem braceAfter?_wides {bs : List Char} (hbs : ∀ b ∈ bs, ¬ IsAscii b) :
    braceAfter? n (bs ++ cs) = braceAfter? (n + bs.length) cs := by
  induction bs generalizing n with
  | nil => rfl
  | cons b bs ih =>
    obtain ⟨hb, hbs⟩ := List.forall_mem_cons.mp hbs
    rw [List.cons_append, braceAfter?, beq_ascii hb (by decide : IsAscii '\x7d'), if_neg nofun, ih hbs,
      List.length_cons, Nat.add_assoc, Nat.add_comm 1]

theorem braceAfter?_asBytes (htext : text.drop n = cs) :
    braceAfter? (bytesTo text n) (asBytes cs) = (braceAfter? n cs).map (bytesTo text) := by
  induction cs generalizing n with
  | nil => rfl
  | cons c cs ih =>
    have ih := ih (drop_succ htext)
    rw [bytesTo_succ htext] at ih
    by_cases hc : IsAscii c
    · rw [utf8Size_of_ascii hc] at ih
      rw [asBytes_ascii hc, braceAfter?, braceAfter?]
      split
      · rfl
      · exact ih
    · rw [asBytes_cons, braceAfter?_wides (not_ascii_byteChars hc), length_byteChars, ih, braceAfter?,
        beq_ascii hc (by decide : IsAscii '\x7d')]
      rfl

theorem scanFrom_asBytes (htext : text.drop n = cs) (hplace : place.Ascii) :
    scanFrom (bytesTo text n) depth (comma.map (bytesTo text)) place (asBytes cs) =
      (scanFrom n depth comma place cs).map (inBytes text) := by
  induction cs generalizing n depth comma place with
  | nil => cases place <;> rfl
  | cons c cs ih =>
    have hnext := bytesTo_succ htext
    have ih {depth comma place} (hplace : Place.Ascii place) :=
      @ih (n + 1) depth comma place (drop_succ htext) hplace
    by_cases hc : IsAscii c
    · rw [utf8Size_of_ascii hc] at hnext
      rw [hnext] at ih
      rw [asBytes_ascii hc]
      cases place with
      | escaped q => exact ih hplace
      | literal q =>
        rw [scanFrom, scanFrom]
        split
        · exact ih trivial
        split
        · exact ih hplace
        · exact ih hplace
      | code =>
        rw [scanFrom, scanFrom, Option.isNone_map]
        split
        · exact ih trivial
        split
        · exact ih trivial
        split
        · split
          · rfl
          · exact ih trivial
        split
        · exact @ih depth (some n) .code trivial
        split
        · rw [← asBytes_ascii hc, braceAfter?_asBytes htext, Option.map_map, Option.map_map]
          rfl
        split
        · exact @ih depth comma (.literal c) hc
        split
        · rfl
        · exact ih trivial
    · rw [asBytes_cons, scanFrom_wides (not_ascii_byteChars hc) (byteChars_ne_nil c) hplace,
        length_byteChars, ← hnext, scanFrom_wide hc hplace]
      refine ih ?_
      cases place <;> exact hplace

/-- The search of a hole over bytes finds boundaries of characters, though it may stop inside a
character on its way. -/
theorem scan?_asBytes (cs : List Char) : scan? (asBytes cs) = (scan? cs).map (inBytes cs) :=
  @scanFrom_asBytes cs cs 0 0 none .code List.drop_zero trivial

end Hole

namespace Extent

variable {cs : List Char}

/-! ## Verbatim literals -/

theorem verbatim?_cons {c : Char} (hc : (c == '"') = false) (cs : List Char) :
    verbatim? (c :: cs) = (verbatim? cs).map (· + 1) := by
  cases cs with
  | nil => simp [verbatim?, hc]
  | cons d ds => simp [verbatim?, hc]

theorem verbatim?_quotes (cs : List Char) :
    verbatim? ('"' :: '"' :: cs) = (verbatim? cs).map (· + 2) := by
  simp [verbatim?]

theorem verbatim?_quote {d : Char} (hd : (d == '"') = false) (cs : List Char) :
    verbatim? ('"' :: d :: cs) = some 1 := by
  simp [verbatim?, hd]

theorem verbatim?_wides {bs : List Char} (hbs : ∀ b ∈ bs, ¬ IsAscii b) :
    verbatim? (bs ++ cs) = (verbatim? cs).map (· + bs.length) := by
  induction bs with
  | nil => simp
  | cons b bs ih =>
    obtain ⟨hb, hbs⟩ := List.forall_mem_cons.mp hbs
    rw [List.cons_append, verbatim?_cons (beq_ascii hb (by decide)), ih hbs, Option.map_map,
      List.length_cons]
    rfl

/-- The first byte of a character that is no quote is no quote. -/
theorem asBytes_quote {d : Char} (hd : (d == '"') = false) (cs : List Char) :
    ∃ b bs, asBytes (d :: cs) = b :: bs ∧ (b == '"') = false := by
  by_cases hascii : IsAscii d
  · exact ⟨d, asBytes cs, asBytes_ascii hascii cs, hd⟩
  · obtain ⟨b, bs, hb⟩ := List.exists_cons_of_ne_nil (byteChars_ne_nil d)
    refine ⟨b, bs ++ asBytes cs, by rw [asBytes_cons, hb, List.cons_append], ?_⟩
    exact beq_ascii (not_ascii_byteChars hascii b (hb ▸ List.mem_cons_self)) (by decide)

theorem verbatim?_asBytes_cons {c : Char} (hc : (c == '"') = false)
    (ih : verbatim? (asBytes cs) = (verbatim? cs).map (bytesTo cs)) :
    verbatim? (asBytes (c :: cs)) = (verbatim? (c :: cs)).map (bytesTo (c :: cs)) := by
  have hskip : verbatim? (asBytes (c :: cs)) = (verbatim? (asBytes cs)).map (· + c.utf8Size) := by
    by_cases hascii : IsAscii c
    · rw [asBytes_ascii hascii, verbatim?_cons hc, utf8Size_of_ascii hascii]
    · rw [asBytes_cons, verbatim?_wides (not_ascii_byteChars hascii), length_byteChars]
  rw [hskip, ih, verbatim?_cons hc, Option.map_map, Option.map_map]
  congr 1
  funext n
  exact Nat.add_comm _ _

/-- The search of a verbatim literal over bytes ends at a boundary of characters. -/
theorem verbatim?_asBytes (cs : List Char) :
    verbatim? (asBytes cs) = (verbatim? cs).map (bytesTo cs) := by
  have hascii : IsAscii '"' := by decide
  induction cs using verbatim?.induct with
  | case1 => rfl
  | case2 c hc =>
    obtain rfl : c = '"' := eq_of_beq hc
    rfl
  | case3 c hc => exact verbatim?_asBytes_cons (Bool.eq_false_iff.mpr hc) rfl
  | case4 c d cs hc hd ih =>
    obtain rfl : c = '"' := eq_of_beq hc
    obtain rfl : d = '"' := eq_of_beq hd
    rw [asBytes_ascii hascii, asBytes_ascii hascii, verbatim?_quotes, verbatim?_quotes, ih,
      Option.map_map, Option.map_map]
    congr 1
    funext n
    show byteLength (cs.take n) + 2 = 1 + (1 + byteLength (cs.take n))
    omega
  | case5 c d cs hc hd =>
    obtain rfl : c = '"' := eq_of_beq hc
    obtain ⟨b, bs, hbytes, hb⟩ := asBytes_quote (Bool.eq_false_iff.mpr hd) cs
    rw [asBytes_ascii hascii, hbytes, verbatim?_quote hb, verbatim?_quote (Bool.eq_false_iff.mpr hd)]
    rfl
  | case6 c d cs hc ih => exact verbatim?_asBytes_cons (Bool.eq_false_iff.mpr hc) ih

/-! ## Numbers -/

/-- The test holds of ASCII characters only. -/
def AsciiOnly (p : Char → Bool) : Prop := ∀ c, p c = true → IsAscii c

variable {p : Char → Bool}

theorem AsciiOnly.eq_false (hp : AsciiOnly p) {c : Char} (hc : ¬ IsAscii c) : p c = false :=
  Bool.eq_false_iff.mpr fun h => hc (hp c h)

theorem asciiOnly_le {c d : Char} (hd : IsAscii d) (h : c ≤ d) : IsAscii c :=
  Nat.lt_of_le_of_lt (UInt32.le_iff_toNat_le.mp h) hd

theorem asciiOnly_eq {d : Char} (hd : IsAscii d) : AsciiOnly (· == d) := fun _ h => eq_of_beq h ▸ hd

theorem asciiOnly_or {q : Char → Bool} (hp : AsciiOnly p) (hq : AsciiOnly q) :
    AsciiOnly fun c => p c || q c :=
  fun c h => (Bool.or_eq_true_iff.mp h).elim (hp c) (hq c)

theorem asciiOnly_isDigit : AsciiOnly Char.isDigit := by
  intro c h
  simp only [Char.isDigit, Bool.and_eq_true, decide_eq_true_eq] at h
  exact asciiOnly_le (d := '9') (by decide) h.2

theorem asciiOnly_digits : AsciiOnly isDigitOrSeparator :=
  asciiOnly_or asciiOnly_isDigit (asciiOnly_eq (by decide))

theorem asciiOnly_hexDigits : AsciiOnly isHexDigitOrSeparator := by
  have hletter {a b : Char} (hb : IsAscii b) : AsciiOnly fun c => a ≤ c && c ≤ b := by
    intro c h
    simp only [Bool.and_eq_true, decide_eq_true_eq] at h
    exact asciiOnly_le hb h.2
  exact asciiOnly_or (asciiOnly_or asciiOnly_digits (hletter (by decide))) (hletter (by decide))

theorem asciiOnly_suffix : AsciiOnly isTypeSuffix := by
  have hsuffixes : ("fFdDmMuUlL".toList.all fun c => decide (IsAscii c)) = true := by decide
  exact fun c h => of_decide_eq_true (List.all_eq_true.mp hsuffixes c (List.contains_iff_mem.mp h))

theorem asBytes_wide {c : Char} (hc : ¬ IsAscii c) (cs : List Char) :
    ∃ b bs, ¬ IsAscii b ∧ asBytes (c :: cs) = b :: bs := by
  obtain ⟨b, bs, hb⟩ := List.exists_cons_of_ne_nil (byteChars_ne_nil c)
  exact ⟨b, bs ++ asBytes cs, not_ascii_byteChars hc b (hb ▸ List.mem_cons_self), by
    rw [asBytes_cons, hb, List.cons_append]⟩

/-- The text starts with a character that passes the test. -/
def starts (p : Char → Bool) (cs : List Char) : Bool := cs.head?.any p

theorem starts_asBytes (hp : AsciiOnly p) (cs : List Char) :
    starts p (asBytes cs) = starts p cs := by
  cases cs with
  | nil => rfl
  | cons c cs =>
    by_cases hc : IsAscii c
    · rw [asBytes_ascii hc]
      rfl
    · obtain ⟨b, bs, hb, heq⟩ := asBytes_wide hc cs
      rw [heq]
      exact (hp.eq_false hb).trans (hp.eq_false hc).symm

/-- An extent that is the same over bytes, since it takes ASCII characters only. -/
structure SameOver (extent : List Char → Nat) (cs : List Char) : Prop where
  same : extent (asBytes cs) = extent cs
  drop : (asBytes cs).drop (extent cs) = asBytes (cs.drop (extent cs))

theorem drop_asBytes (hp : AsciiOnly p) (h : starts p cs = true) :
    (asBytes cs).drop 1 = asBytes (cs.drop 1) := by
  cases cs with
  | nil => rfl
  | cons c cs =>
    rw [asBytes_ascii (hp c h)]
    rfl

theorem run_cons (p : Char → Bool) (c : Char) (cs : List Char) :
    run p (c :: cs) = if p c then run p cs + 1 else 0 := by
  rw [run, List.takeWhile_cons]
  split <;> rfl

theorem sameOver_run (hp : AsciiOnly p) (cs : List Char) : SameOver (run p) cs := by
  induction cs with
  | nil => exact ⟨rfl, rfl⟩
  | cons c cs ih =>
    by_cases hc : IsAscii c
    · constructor
      · rw [asBytes_ascii hc, run_cons, run_cons, ih.same]
      · rw [asBytes_ascii hc, run_cons]
        split
        · rw [List.drop_succ_cons, List.drop_succ_cons, ih.drop]
        · exact (asBytes_ascii hc cs).symm
    · obtain ⟨b, bs, hb, heq⟩ := asBytes_wide hc cs
      have hnone : run p (c :: cs) = 0 := by rw [run_cons, hp.eq_false hc, if_neg nofun]
      constructor
      · rw [heq, run_cons, hp.eq_false hb, hnone, if_neg nofun]
      · rw [hnone]
        rfl

theorem SameOver.then {f g h : List Char → Nat} (hf : SameOver f cs)
    (hg : SameOver g (cs.drop (f cs))) (hh : ∀ cs, h cs = f cs + g (cs.drop (f cs))) :
    SameOver h cs where
  same := by rw [hh, hh, hf.same, hf.drop, hg.same]
  drop := by rw [hh, ← List.drop_drop, hf.drop, hg.drop, List.drop_drop]

/-- Digits behind the first `k` characters, together with these. -/
def digitsBehind (k : Nat) (cs : List Char) : Nat :=
  if starts Char.isDigit (cs.drop k) then k + run isDigitOrSeparator (cs.drop k) else 0

theorem sameOver_digitsBehind {k : Nat} (hk : (asBytes cs).drop k = asBytes (cs.drop k)) :
    SameOver (digitsBehind k) cs := by
  have hrun := sameOver_run asciiOnly_digits (cs.drop k)
  constructor
  · rw [digitsBehind, digitsBehind, hk, starts_asBytes asciiOnly_isDigit, hrun.same]
  · rw [digitsBehind]
    split
    · rw [← List.drop_drop, hk, hrun.drop, List.drop_drop]
    · rfl

theorem SameOver.ite {test : List Char → Bool} {f g h : List Char → Nat}
    (htest : test (asBytes cs) = test cs) (hf : test cs = true → SameOver f cs) (hg : SameOver g cs)
    (hh : ∀ cs, h cs = if test cs then f cs else g cs) : SameOver h cs := by
  cases hcs : test cs with
  | true => exact ⟨by rw [hh, hh, htest, hcs, if_pos rfl, if_pos rfl, (hf hcs).same],
      by rw [hh, hcs, if_pos rfl, (hf hcs).drop]⟩
  | false => exact ⟨by rw [hh, hh, htest, hcs, if_neg nofun, if_neg nofun, hg.same],
      by rw [hh, hcs, if_neg nofun, hg.drop]⟩

theorem sameOver_zero (cs : List Char) : SameOver (fun _ => 0) cs := ⟨rfl, rfl⟩

theorem fraction_eq (cs : List Char) :
    fraction cs = if starts (· == '.') cs then digitsBehind 1 cs else 0 := by
  rcases cs with _ | ⟨c, _ | ⟨d, ds⟩⟩
  · rfl
  · unfold fraction
    simp [digitsBehind, starts]
  · by_cases hc : c = '.'
    · obtain rfl := hc
      rfl
    · simp [fraction, starts, hc]

theorem sameOver_fraction (cs : List Char) : SameOver fraction cs :=
  .ite (starts_asBytes (asciiOnly_eq (by decide)) cs)
    (fun hpoint => sameOver_digitsBehind (drop_asBytes (asciiOnly_eq (by decide)) hpoint))
    (sameOver_zero cs) fraction_eq

/-- The letter of an exponent. -/
def isExponent (c : Char) : Bool := c == 'e' || c == 'E'

/-- The sign of an exponent. -/
def isSign (c : Char) : Bool := c == '+' || c == '-'

theorem asciiOnly_isExponent : AsciiOnly isExponent :=
  asciiOnly_or (asciiOnly_eq (by decide)) (asciiOnly_eq (by decide))

theorem asciiOnly_isSign : AsciiOnly isSign :=
  asciiOnly_or (asciiOnly_eq (by decide)) (asciiOnly_eq (by decide))

/-- The digits of an exponent, behind its letter and its sign if it has one. -/
def exponentDigitsBehind (cs : List Char) : Nat :=
  if starts isSign (cs.drop 1) then digitsBehind 2 cs else digitsBehind 1 cs

theorem exponent_eq (cs : List Char) :
    exponent cs = if starts isExponent cs then exponentDigitsBehind cs else 0 := by
  have hdigits (k : Nat) (ds es : List Char) (hes : es.drop k = ds) :
      ((exponentDigits ds).map (· + k)).getD 0 = digitsBehind k es := by
    rw [digitsBehind, hes]
    cases ds with
    | nil => rfl
    | cons d ds =>
      rw [exponentDigits]
      show _ = if d.isDigit then _ else _
      split
      · exact Nat.add_comm _ _
      · rfl
  rcases cs with _ | ⟨c, _ | ⟨d, ds⟩⟩
  · rfl
  · unfold exponent
    exact ite_congr rfl (fun _ => rfl) fun _ => rfl
  · unfold exponent
    dsimp only
    rw [hdigits 2 ds (c :: d :: ds) rfl, hdigits 1 (d :: ds) (c :: d :: ds) rfl]
    rfl

theorem sameOver_exponent (cs : List Char) : SameOver exponent cs := by
  refine .ite (starts_asBytes asciiOnly_isExponent cs) (fun hletter => ?_) (sameOver_zero cs)
    exponent_eq
  have hone := drop_asBytes asciiOnly_isExponent hletter
  refine .ite ?_ (fun hsign => sameOver_digitsBehind ?_) (sameOver_digitsBehind hone) fun _ => rfl
  · rw [hone, starts_asBytes asciiOnly_isSign]
  · have htwo := drop_asBytes asciiOnly_isSign hsign
    rwa [← hone, List.drop_drop, List.drop_drop] at htwo

theorem sameOver_decimal (cs : List Char) : SameOver decimal cs :=
  ((sameOver_run asciiOnly_digits cs).then (sameOver_fraction _) fun _ => rfl).then
    (sameOver_exponent _) fun _ => rfl

/-- The letter of a hexadecimal number. -/
def isHexLetter (c : Char) : Bool := c == 'x' || c == 'X'

theorem asciiOnly_isHexLetter : AsciiOnly isHexLetter :=
  asciiOnly_or (asciiOnly_eq (by decide)) (asciiOnly_eq (by decide))

/-- The text starts with a zero and the letter of a hexadecimal number. -/
def startsHex (cs : List Char) : Bool := starts (· == '0') cs && starts isHexLetter (cs.drop 1)

theorem unsuffixed_eq (cs : List Char) :
    unsuffixed cs = if startsHex cs then 2 + run isHexDigitOrSeparator (cs.drop 2) else decimal cs := by
  rcases cs with _ | ⟨c, _ | ⟨d, ds⟩⟩
  · rfl
  · simp [unsuffixed, startsHex, starts]
  · by_cases hc : c = '0'
    · obtain rfl := hc
      rfl
    · simp [unsuffixed, startsHex, starts, hc]

theorem sameOver_unsuffixed (cs : List Char) : SameOver unsuffixed cs := by
  have hzero : AsciiOnly (· == '0') := asciiOnly_eq (by decide)
  refine .ite ?_ (fun hhex => ?_) (sameOver_decimal cs) unsuffixed_eq
  · rw [startsHex, startsHex, starts_asBytes hzero]
    cases hstart : starts (· == '0') cs with
    | true => rw [drop_asBytes hzero hstart, starts_asBytes asciiOnly_isHexLetter]
    | false => rfl
  · obtain ⟨hstart, hletter⟩ := Bool.and_eq_true_iff.mp hhex
    have hone := drop_asBytes hzero hstart
    have htwo := drop_asBytes asciiOnly_isHexLetter hletter
    rw [← hone, List.drop_drop, List.drop_drop] at htwo
    exact .then ⟨rfl, htwo⟩ (sameOver_run asciiOnly_hexDigits _) fun _ => rfl

/-- The search of a number over bytes takes the same characters. -/
theorem sameOver_number (cs : List Char) : SameOver number cs :=
  (sameOver_unsuffixed cs).then (sameOver_run asciiOnly_suffix _) fun _ => rfl

end Extent

end SharpLint
