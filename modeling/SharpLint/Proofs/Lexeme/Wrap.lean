import SharpLint.Proofs.Grammar.Path
import SharpLint.Proofs.Lexeme.Tokens

/-!
# Pieces of a call around a path

A call is put around the pieces of a path: in front of them comes a dotted name with a parenthesis, and
behind them a parenthesis or a comma. What stands around is read as before (`Cuts.wrap`): in front of
the name stands trivia or an opener that is no word, and a path ends in a name or a number, which neither
a parenthesis nor a comma goes on with.
-/

namespace SharpLint

namespace Extent

/-- A number ends in a character that a number can have. -/
theorem number_last {w rest : List Char} {c : Char}
    (h : number (w ++ c :: rest) = w.length + 1) : (inNumber c || isDigitOrSign c) = true := by
  by_contra hc
  rw [Bool.not_eq_true, Bool.or_eq_false_iff] at hc
  have hle : number (w ++ []) ≤ w.length := by
    rw [List.append_nil]
    exact number_le w
  have hquiet : Stops isDigitOrSign (c :: rest) := by
    rintro d ⟨rfl⟩
    exact hc.2
  have hsame := keeps_number hquiet w hle fun _ => by
    rintro d ⟨rfl⟩
    exact hc.1
  omega

end Extent

namespace Piece

open Extent Cursor

variable {rest rest' before : List Char} {line : Bool} {w : List Char} {kind : TokenKind} {c d : Char}

/-! ## Tokens of a path -/

theorem not_startsPath_punctuation : ∀ kind ∈ punctuation, kind.startsPath = false := by decide

/-- A token that a path can start with is a number or a name. -/
theorem TokenAt.path_cases (h : TokenAt rest kind w) (hkind : kind.startsPath = true) :
    (∃ c cs, w = c :: cs ∧ (c.isDigit = true ∨ c = '.') ∧
      Extent.number (c :: cs ++ rest) = cs.length + 1) ∨
    ∃ c cs, (w = c :: cs ∨ w = '@' :: c :: cs) ∧ startsName c = true ∧
      ∀ d ∈ cs, continuesName d = true := by
  cases h with
  | number hfirst hnumber =>
    exact .inl ⟨_, _, rfl, hfirst.imp_right And.left, hnumber⟩
  | name hc hcs _ => exact .inr ⟨_, _, .inl rfl, hc, hcs⟩
  | verbatimName hc hcs _ => exact .inr ⟨_, _, .inr rfl, hc, hcs⟩
  | punctuation hfound _ =>
    rw [not_startsPath_punctuation kind (List.mem_of_find?_eq_some hfound)] at hkind
    cases hkind
  | _ => cases hkind

/-- A character that is no blank, ends no line and starts no directive. -/
def isInk (c : Char) : Bool := !isSpace c && isInLine c && c != '#'

theorem isInk_of_test {p : Char → Bool} (h : p c = true)
    (hp : [' ', '\t', '\r', '\n', '#'].any p = false) : isInk c = true := by
  have hne := notMem_of_any h hp
  simp only [List.mem_cons, List.not_mem_nil, or_false, not_or] at hne
  obtain ⟨h1, h2, h3, h4, h5⟩ := hne
  simp [isInk, isSpace, isInLine, h1, h2, h3, h4, h5]

theorem isInk_of_number (h : (inNumber c || isDigitOrSign c) = true) : isInk c = true :=
  isInk_of_test (p := fun c => inNumber c || isDigitOrSign c) h (by decide)

theorem isInk_of_name (h : continuesName c = true) : isInk c = true := isInk_of_test h (by decide)

theorem TokenAt.isInk_head (h : TokenAt rest kind w) (hkind : kind.startsPath = true) :
    ∀ c ∈ w.head?, isInk c = true := by
  rintro c hc
  obtain ⟨d, cs, rfl, hd, -⟩ | ⟨d, cs, rfl | rfl, hd, -⟩ := h.path_cases hkind
  · obtain rfl : d = c := Option.some.inj hc
    refine isInk_of_number ?_
    rcases hd with hdigit | rfl
    · simp [isDigitOrSign, hdigit]
    · rfl
  · obtain rfl : d = c := Option.some.inj hc
    exact isInk_of_name (continuesName_of_startsName hd)
  · obtain rfl : '@' = c := Option.some.inj hc
    rfl

theorem TokenAt.isInk_last (h : TokenAt rest kind w) (hkind : kind.startsPath = true) :
    ∀ c ∈ w.getLast?, isInk c = true := by
  intro c hc
  obtain ⟨d, ds, rfl, -, hnumber⟩ | ⟨d, ds, hw, hd, hds⟩ := h.path_cases hkind
  · obtain ⟨cs, hcs⟩ := List.getLast?_eq_some_iff.mp hc
    have hlength : ds.length = cs.length := by simpa using congrArg List.length hcs
    rw [hcs, hlength, List.append_assoc] at hnumber
    exact isInk_of_number (number_last hnumber)
  · have hlast : (d :: ds).getLast? = some c := by
      rcases hw with rfl | rfl
      · exact hc
      · rwa [Option.mem_def, List.getLast?_cons_cons] at hc
    have hall : ∀ e ∈ d :: ds, continuesName e = true :=
      List.forall_mem_cons.mpr ⟨continuesName_of_startsName hd, hds⟩
    exact isInk_of_name (hall c (List.mem_of_getLast? hlast))

theorem wordKind_notMem (w : List Char) : wordKind w ∉ punctuation := by
  have hall : ∀ kind ∈ punctuation, kind ≠ .identifier ∧ kind.keyword? = none := by decide
  intro hmem
  have h := hall _ hmem
  unfold wordKind at h
  cases hword : Keyword.ofText? (String.ofList w) with
  | none => exact h.1 (by rw [hword]; rfl)
  | some k =>
    rw [hword] at h
    cases h.2

/-- A punctuation has one spelling. -/
theorem TokenAt.spelling_eq (h : TokenAt rest kind w) (hkind : kind ∈ Piece.punctuation) :
    w = spelling kind := by
  cases h with
  | name | verbatimName => exact absurd hkind (wordKind_notMem _)
  | punctuation => rfl
  | _ => exact absurd hkind (by decide)

/-- Neither a closing parenthesis nor a comma goes on with a token. -/
theorem takes_closing (kind : TokenKind) : kind.takes ')' = false ∧ kind.takes ',' = false := by
  cases kind <;> exact ⟨rfl, rfl⟩

/-! ## In front of a name -/

/-- Characters that a name starts with, an `@` included. -/
def opensName (c : Char) : Bool := startsName c || c == '@'

theorem ne_of_opensName (h : opensName c = true)
    (hds : [' ', '\t', '\r', '\n', '#', '+', '-', '"', '?', '=', '<', '>', '&', '|', '*', '/', '.'].any
      opensName = false := by decide) :
    c ∉ [' ', '\t', '\r', '\n', '#', '+', '-', '"', '?', '=', '<', '>', '&', '|', '*', '/', '.'] :=
  notMem_of_any h hds

theorem isDigit_of_opensName (h : opensName c = true) : c.isDigit = false := by
  rcases Bool.or_eq_true_iff.mp h with h | h
  · exact isDigit_of_startsName h
  · rw [eq_of_beq h]
    rfl

theorem joins_of_opensName (h : opensName c = true) : joins c = false := by
  have hne := ne_of_opensName h
  rw [joins, isDigit_of_opensName h, Bool.false_or]
  simp only [List.mem_cons, List.not_mem_nil, or_false, not_or] at hne
  simp [hne]

theorem isDigitOrSign_of_opensName (h : opensName c = true) : isDigitOrSign c = false := by
  have hne := ne_of_opensName h
  simp only [List.mem_cons, List.not_mem_nil, or_false, not_or] at hne
  simp [isDigitOrSign, isSign, isDigit_of_opensName h, hne]

/-- Trivia in front of a token are not changed by the name that the token starts with. -/
theorem TriviaAt.takes_opensName {kind : TriviaKind} (h : TriviaAt line (d :: rest) kind w)
    (hd : isInLine d = true) (hc : opensName c = true) : kind.takes c = false := by
  have hne := ne_of_opensName hc
  simp only [List.mem_cons, List.not_mem_nil, or_false, not_or] at hne
  have hline (hstops : Stops isInLine (d :: rest)) : False := by
    rw [hstops d rfl] at hd
    cases hd
  cases h with
  | newline | carriageNewline | comment => rfl
  | carriage | blank => simp [TriviaKind.takes, isSpace, hne]
  | lineComment _ hstops => exact (hline hstops).elim
  | directive _ _ hstops => exact (hline hstops).elim

theorem takes_opens {kind : TokenKind} (hkind : kind.opens = true) (hword : kind.keyword? = none) :
    kind.takes = joins := by
  cases kind <;> first | rfl | exact absurd hkind (by decide) | cases hword

/-- No token starts with a blank. -/
theorem TokenAt.stops_space (h : TokenAt rest kind w) : Stops isSpace w := by
  rintro c hc
  have hplain {p : Char → Bool} (hp : p c = true) (hds : [' ', '\t'].any p = false) :
      isSpace c = false := by
    have hne := notMem_of_any hp hds
    simp only [List.mem_cons, List.not_mem_nil, or_false, not_or] at hne
    simp [isSpace, hne.1, hne.2]
  cases h with
  | number hfirst _ =>
    obtain rfl := Option.some.inj hc
    rcases hfirst with hdigit | ⟨rfl, -⟩
    · exact hplain hdigit (by decide)
    · rfl
  | name hstart _ _ =>
    obtain rfl := Option.some.inj hc
    exact hplain hstart (by decide)
  | punctuation hfound _ =>
    have hall : ∀ kind ∈ Piece.punctuation, (spelling kind).head?.any isSpace = false := by decide
    have hfirst := hall _ (List.mem_of_find?_eq_some hfound)
    rwa [hc, Option.any_some] at hfirst
  | _ =>
    obtain rfl := Option.some.inj hc
    rfl

/-- Comments and directives do not start with a blank. -/
theorem TriviaAt.stops_space {kind : TriviaKind} (h : TriviaAt line rest kind w)
    (hblank : kind ≠ .whitespace) (hend : kind ≠ .endOfLine) : Stops isSpace w := by
  rintro c hc
  cases h with
  | newline | carriageNewline => exact absurd rfl hend
  | carriage | blank => exact absurd rfl hblank
  | _ =>
    obtain rfl := Option.some.inj hc
    rfl

/-! ## New pieces -/

theorem at_openParen (line : Bool) (rest : List Char) :
    (Piece.token .openParen "(" 0).At line rest :=
  @TokenAt.punctuation _ .openParen rfl ⟨nofun, nofun, nofun⟩

theorem at_closeParen (line : Bool) (rest : List Char) :
    (Piece.token .closeParen ")" 0).At line rest :=
  @TokenAt.punctuation _ .closeParen rfl ⟨nofun, nofun, nofun⟩

theorem at_comma (line : Bool) (rest : List Char) : (Piece.token .comma "," 0).At line rest :=
  @TokenAt.punctuation _ .comma rfl ⟨nofun, nofun, nofun⟩

theorem at_dot (line : Bool) (hrest : Stops Char.isDigit rest) :
    (Piece.token .dot "." 0).At line rest :=
  @TokenAt.punctuation _ .dot rfl ⟨nofun, fun _ => hrest, nofun⟩

theorem at_space (line : Bool) (hrest : Stops isSpace rest) : (Piece.trivia .space).At line rest :=
  TriviaAt.blank (w := [' ']) (List.cons_ne_nil _ _) (by simp [isSpace]) hrest

end Piece

/-! ## Dotted names -/

/-- Characters of a name, with or without an `@`. -/
def isName : List Char → Bool
  | '@' :: c :: cs => Extent.startsName c && cs.all Extent.continuesName
  | c :: cs => Extent.startsName c && cs.all Extent.continuesName
  | [] => false

/-- A name that is no keyword. -/
def isIdentifier (s : String) : Bool := (Keyword.ofText? s).isNone && isName s.toList

namespace Token

/-- The tokens of a dotted name. -/
def dotted : String → List String → List Token
  | first, [] => [.bare .identifier first]
  | first, second :: others => .bare .identifier first :: .ofKind .dot :: dotted second others

end Token

namespace Piece

open Extent Cursor

variable {rest before : List Char} {s : String}

theorem isIdentifier_cases (h : isIdentifier s = true) :
    wordKind s.toList = .identifier ∧ ∃ c cs, (s.toList = c :: cs ∨ s.toList = '@' :: c :: cs) ∧
      startsName c = true ∧ ∀ d ∈ cs, continuesName d = true := by
  obtain ⟨hword, hname⟩ := Bool.and_eq_true_iff.mp h
  refine ⟨?_, ?_⟩
  · rw [wordKind, String.ofList_toList, Option.isNone_iff_eq_none.mp hword]
    rfl
  · generalize s.toList = w at hname
    unfold isName at hname
    split at hname
    · rename_i c cs
      rw [Bool.and_eq_true, List.all_eq_true] at hname
      exact ⟨c, cs, .inr rfl, hname⟩
    · rename_i c cs _
      rw [Bool.and_eq_true, List.all_eq_true] at hname
      exact ⟨c, cs, .inl rfl, hname⟩
    · cases hname

theorem tokenAt_identifier (h : isIdentifier s = true) (hrest : Stops continuesName rest) :
    TokenAt rest .identifier s.toList := by
  obtain ⟨hkind, c, cs, hw | hw, hc, hcs⟩ := isIdentifier_cases h
  · rw [← hkind, hw]
    exact .name hc hcs hrest
  · rw [← hkind, hw]
    exact .verbatimName hc hcs hrest

theorem at_identifier (line : Bool) (h : isIdentifier s = true) (hrest : Stops continuesName rest) :
    (Piece.token .identifier s 0).At line rest := tokenAt_identifier h hrest

theorem opensName_identifier (h : isIdentifier s = true) :
    ∃ c cs, s.toList = c :: cs ∧ opensName c = true := by
  obtain ⟨-, c, cs, hw | hw, hc, -⟩ := isIdentifier_cases h
  · exact ⟨c, cs, hw, by simp [opensName, hc]⟩
  · exact ⟨'@', c :: cs, hw, rfl⟩

/-- The characters of a dotted name start with those of its first part. -/
theorem printed_dotted (first : String) (others : List String) :
    ∃ w, printed ((Token.dotted first others).flatMap Token.pieces) = first.toList ++ w := by
  cases others with
  | nil => exact ⟨[], rfl⟩
  | cons second others => exact ⟨_, rfl⟩

theorem cuts_dotted {first : String} {others : List String}
    (h : ∀ s ∈ first :: others, isIdentifier s = true) :
    Cuts ('(' :: rest) before ((Token.dotted first others).flatMap Token.pieces) := by
  induction others generalizing first before with
  | nil =>
    have hstops : Stops continuesName ('(' :: rest) := by
      rintro d ⟨rfl⟩
      rfl
    exact .cons (at_identifier _ (h first List.mem_cons_self) hstops) .nil
  | cons second others ih =>
    rw [List.forall_mem_cons] at h
    obtain ⟨c, cs, hc, hopens⟩ := opensName_identifier (h.2 second List.mem_cons_self)
    obtain ⟨w, hw⟩ := printed_dotted second others
    have hdot : Stops Char.isDigit
        (printed ((Token.dotted second others).flatMap Token.pieces) ++ '(' :: rest) := by
      rw [hw, hc]
      rintro d ⟨rfl⟩
      exact isDigit_of_opensName hopens
    refine .cons (at_identifier _ h.1 ?_) (.cons (at_dot _ hdot) (ih h.2))
    rintro d ⟨rfl⟩
    rfl

/-! ## The call -/

/-- A token of a path. -/
def IsWord (p : Piece) : Prop := ∃ kind text offset, p = .token kind text offset ∧ kind.startsPath = true

/-- A piece that may stand directly in front of a path. -/
def MayLead : Piece → Prop
  | .trivia _ => True
  | .token kind _ _ => kind.opens = true ∧ kind.keyword? = none

variable {ps path front behind : List Piece}

theorem Cuts.isInk_head (h : Cuts rest before ps) (hps : ∀ p ∈ ps.head?, IsWord p) :
    ∀ c ∈ (printed ps).head?, isInk c = true := by
  cases h with
  | nil => exact nofun
  | @cons _ p ps hp _ =>
    obtain ⟨kind, text, offset, rfl, hkind⟩ := hps p rfl
    have hp : TokenAt _ kind text.toList := hp
    obtain ⟨c, cs, hc⟩ := List.exists_cons_of_ne_nil hp.ne_nil
    have hhead : (printed (.token kind text offset :: ps)).head? = text.toList.head? := by
      rw [printed_cons]
      show (text.toList ++ printed ps).head? = _
      rw [hc]
      rfl
    rw [hhead]
    exact hp.isInk_head hkind

/-- Behind a word no line starts. -/
theorem Cuts.startsLine_word (h : Cuts rest before ps) (hne : ps ≠ [])
    (hps : ∀ p ∈ ps.getLast?, IsWord p) : startsLine ((printed ps).reverse ++ before) = false := by
  obtain ⟨qs, p, rfl⟩ := (List.eq_nil_or_concat' ps).resolve_left hne
  obtain ⟨kind, text, offset, rfl, hkind⟩ := hps p List.getLast?_concat
  obtain ⟨-, _ | ⟨hp, -⟩⟩ := cuts_append.mp h
  have hp : TokenAt _ kind text.toList := hp
  obtain ⟨w, c, hc⟩ := (List.eq_nil_or_concat' _).resolve_left hp.ne_nil
  have hink : isInk c = true := hp.isInk_last hkind c (by rw [hc, List.getLast?_concat]; rfl)
  have hprinted : printed (qs ++ [.token kind text offset]) = printed qs ++ w ++ [c] := by
    rw [printed_append, List.append_assoc, ← hc]
    exact congrArg (printed qs ++ ·) (List.append_nil _)
  simp only [isInk, isInLine, Bool.and_eq_true, Bool.not_eq_true'] at hink
  rw [hprinted, List.reverse_concat, List.cons_append, startsLine_cons hink.1.1]
  simpa using hink.1.2.2

theorem Cuts.last (h : Cuts rest before ps) : ∀ p ∈ ps.getLast?, ∃ line, p.At line rest := by
  intro p hp
  obtain ⟨qs, rfl⟩ := List.getLast?_eq_some_iff.mp hp
  obtain ⟨-, _ | ⟨hat, -⟩⟩ := cuts_append.mp h
  exact ⟨_, hat⟩

/-- A name may stand where a path stood. -/
theorem stops_takes_name {p : Piece} {line : Bool} {c d : Char} {cs : List Char}
    (h : p.At line (d :: rest)) (hp : MayLead p) (hd : isInk d = true) (hc : opensName c = true) :
    Stops p.takes (c :: cs) := by
  rintro e ⟨rfl⟩
  cases p with
  | trivia t =>
    simp only [isInk, Bool.and_eq_true] at hd
    exact TriviaAt.takes_opensName h hd.1.2 hc
  | token kind text offset =>
    show kind.takes c = false
    rw [takes_opens hp.1 hp.2]
    exact joins_of_opensName hc

/-- A dotted name and a parenthesis can be put in front of a path, if a parenthesis or a comma follows
the path. -/
theorem Cuts.wrap {first : String} {others : List String} {behind' : List Piece}
    (h : Cuts [] [] (front ++ (path ++ behind))) (hfront : ∀ p ∈ front.getLast?, MayLead p)
    (hpath : path ≠ []) (hhead : ∀ p ∈ path.head?, IsWord p) (hlast : ∀ p ∈ path.getLast?, IsWord p)
    (hname : ∀ s ∈ first :: others, isIdentifier s = true)
    (hclosing : ∀ c ∈ (printed behind').head?, c = ')' ∨ c = ',')
    (hbehind : ∀ before, startsLine before = false → Cuts [] before behind') :
    Cuts [] [] (front ++ ((Token.dotted first others).flatMap Token.pieces ++
      .token .openParen "(" 0 :: (path ++ behind'))) := by
  obtain ⟨hold, hrest⟩ := cuts_append.mp h
  obtain ⟨hword, -⟩ := cuts_append.mp hrest
  obtain ⟨c, cs, hc, hopens⟩ := opensName_identifier (hname first List.mem_cons_self)
  obtain ⟨w, hw⟩ := printed_dotted first others
  have hink := hword.isInk_head hhead
  -- the path is read as before, for neither a blank nor a `#` comes first
  have hagain (before : List Char) : Cuts (printed behind' ++ []) before path := by
    have hsame : Cuts (printed behind ++ []) before path := hword.rebase_of_ink fun d hd => by
      have := hink d hd
      simp only [isInk, Bool.and_eq_true, Bool.not_eq_true', bne_iff_ne] at this
      exact ⟨this.1.1, this.2⟩
    rw [List.append_nil]
    refine hsame.follow (fun d hd => ?_) fun p hp d hd => ?_
    · rcases hclosing d hd with rfl | rfl <;> rfl
    · obtain ⟨kind, text, offset, rfl, -⟩ := hlast p hp
      rcases hclosing d hd with rfl | rfl
      · exact (takes_closing kind).1
      · exact (takes_closing kind).2
  refine cuts_append.mpr ⟨hold.follow ?_ fun p hp => ?_, cuts_append.mpr ⟨cuts_dotted hname, ?_⟩⟩
  · rw [printed_append, hw, hc]
    rintro d ⟨rfl⟩
    exact isDigitOrSign_of_opensName hopens
  · obtain ⟨line, hat⟩ := hold.last p hp
    obtain ⟨d, ds, hd⟩ := List.exists_cons_of_ne_nil (hword.printed_ne_nil hpath)
    rw [printed_append, hd] at hat
    rw [printed_append, hw, hc]
    exact stops_takes_name hat (hfront p hp) (hink d (by rw [hd]; rfl)) hopens
  · exact .cons (at_openParen _ _) (cuts_append.mpr ⟨hagain _,
      hbehind _ ((hagain _).startsLine_word hpath hlast)⟩)

/-! ## A word for accessibility -/

/-- A word with this text may stand where another one stood that starts alike. -/
theorem TokenAt.takes_internal (h : TokenAt (c :: rest) kind w) (hc : c = 'p' ∨ c = 'i') :
    kind.takes 'i' = false := by
  have hstops (hstops : Stops continuesName (c :: rest)) : False := by
    have := hstops c rfl
    rcases hc with rfl | rfl <;> cases this
  cases h with
  | name _ _ hrest => exact (hstops hrest).elim
  | verbatimName _ _ hrest => exact (hstops hrest).elim
  | punctuation hfound _ =>
    rw [takes_punctuation kind (List.mem_of_find?_eq_some hfound)]
    rfl
  | _ => rfl

theorem TriviaAt.takes_internal {kind : TriviaKind} (h : TriviaAt line (c :: rest) kind w)
    (hc : c = 'p' ∨ c = 'i') : kind.takes 'i' = false := by
  have hline (hstops : Stops isInLine (c :: rest)) : False := by
    have := hstops c rfl
    rcases hc with rfl | rfl <;> cases this
  cases h with
  | lineComment _ hrest => exact (hline hrest).elim
  | directive _ _ hrest => exact (hline hrest).elim
  | _ => rfl

theorem chars_of_wordKind {k : Keyword} (h : wordKind w = .keyword k) : w = k.text.toList := by
  unfold wordKind at h
  cases hword : Keyword.ofText? (String.ofList w) with
  | none =>
    rw [hword] at h
    cases h
  | some j =>
    rw [hword] at h
    obtain rfl : j = k := TokenKind.keyword.inj h
    rw [Keyword.text_of_ofText? hword, String.toList_ofList]

theorem TokenAt.access (h : TokenAt rest kind w) (hkind : kind.isAccess = true) :
    Stops continuesName rest ∧ w ∈ ["public", "private", "protected", "internal"].map String.toList := by
  have hspelled (w : List Char) (hword : (wordKind w).isAccess = true) :
      w ∈ ["public", "private", "protected", "internal"].map String.toList := by
    obtain ⟨k, hk, haccess⟩ := TokenKind.isAccess_iff.mp hword
    rw [chars_of_wordKind hk]
    cases k <;> first | exact absurd haccess (by decide) | simp [Keyword.text]
  cases h with
  | name _ _ hrest => exact ⟨hrest, hspelled _ hkind⟩
  | verbatimName _ _ hrest => exact ⟨hrest, hspelled _ hkind⟩
  | punctuation hfound _ =>
    have hall : ∀ kind ∈ Piece.punctuation, kind.isAccess = false := by decide
    rw [hall _ (List.mem_of_find?_eq_some hfound)] at hkind
    cases hkind
  | _ => cases hkind

theorem at_internal (line : Bool) (hrest : Stops continuesName rest) :
    (Piece.token (.keyword .kwInternal) "internal" 0).At line rest :=
  @TokenAt.name _ 'i' "nternal".toList (by decide) (List.all_eq_true.mp (by decide)) hrest

/-- A word for accessibility may be exchanged for `internal`. -/
theorem Cuts.access {text : String} {offset : Nat}
    (h : Cuts [] before (front ++ .token kind text offset :: behind)) (hkind : kind.isAccess = true) :
    Cuts [] before (front ++ .token (.keyword .kwInternal) "internal" 0 :: behind) := by
  obtain ⟨hfront, hrest⟩ := cuts_append.mp h
  obtain _ | ⟨hat, hbehind⟩ := hrest
  have hat : TokenAt _ kind text.toList := hat
  obtain ⟨hstops, hspelled⟩ := hat.access hkind
  have hends : ∀ w ∈ ["public", "private", "protected", "internal"].map String.toList,
      (∃ c cs, w = c :: cs ∧ (c = 'p' ∨ c = 'i')) ∧ ∀ b : List Char,
        startsLine (w.reverse ++ b) = false := by
    simp [startsLine_cons, isSpace]
  obtain ⟨⟨c, cs, hc, hfirst⟩, hlast⟩ := hends _ hspelled
  refine cuts_append.mpr ⟨hfront.follow ?_ fun p hp => ?_,
    .cons (at_internal _ hstops) (hbehind.rebase ?_)⟩
  · rintro d ⟨rfl⟩
    rfl
  · obtain ⟨line, hat⟩ := hfront.last p hp
    have hchars : (Piece.token kind text offset).chars = c :: cs := hc
    rw [printed_cons, hchars] at hat
    rintro d ⟨rfl⟩
    cases p with
    | trivia t => exact TriviaAt.takes_internal hat hfirst
    | token kind text offset => exact TokenAt.takes_internal hat hfirst
  · exact (hlast _).symm

end Piece

end SharpLint
