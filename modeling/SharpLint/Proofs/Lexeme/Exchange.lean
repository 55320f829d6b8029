import SharpLint.Proofs.Lexeme.Wrap
import SharpLint.Proofs.Tree.Trivia
import SharpLint.Repair.FormatCall

/-!
# Tokens of a call around a path

    opener path …          opener name(path …           with `)` or `,` behind the path

The trivia in front of the path move to the name, and those behind the path are dropped, unless they
come again behind the parenthesis. Where the old tokens are what a text is read into, so are the new ones
(`Cut.operand`, `Cut.call`, `Cut.callMore`); a word in front of the path needs a trivia behind it, for
else the name would go on with the word.
-/

namespace SharpLint

open SharpLint.Tree

namespace Token

/-! ## Outer trivia -/

/-- Trivia in front of the first token. -/
def outerLeading (ts : List Token) : List Trivia := (ts.head?.map Token.leading).getD []

/-- Trivia behind the last token. -/
def outerTrailing (ts : List Token) : List Trivia := (ts.getLast?.map Token.trailing).getD []

theorem pieces_cons (t : Token) (ts : List Token) : (t :: ts).flatMap pieces =
    t.leading.map .trivia ++
      .token t.kind t.text 0 :: (t.trailing.map .trivia ++ ts.flatMap pieces) := by
  rw [List.flatMap_cons, pieces, List.append_assoc, List.cons_append]

theorem pieces_ofKind (kind : TokenKind) (ts : List Trivia) (us : List Token) (ps : List Piece) :
    ({ ofKind kind with trailing := ts } :: us).flatMap pieces ++ ps =
      .token kind (ofKind kind).text 0 :: (ts.map .trivia ++ (us.flatMap pieces ++ ps)) := by
  rw [List.flatMap_cons, pieces, List.append_assoc]
  simp [ofKind, bare]

theorem pieces_outer {ts : List Token} (h : ts ≠ []) : ts.flatMap pieces =
    (outerLeading ts).map .trivia ++
      ((withOuter [] [] ts).flatMap pieces ++ (outerTrailing ts).map .trivia) := by
  obtain ⟨a, us, rfl⟩ := List.exists_cons_of_ne_nil h
  obtain rfl | ⟨mid, b, rfl⟩ := List.eq_nil_or_concat' us
  · simp [withOuter_singleton, pieces, outerLeading, outerTrailing]
  · have hlast : (a :: (mid ++ [b])).getLast? = some b := by
      rw [← List.cons_append, List.getLast?_concat]
    simp [withOuter_cons_concat, pieces, outerLeading, outerTrailing, hlast]

@[simp] theorem map_kind_withOuter (leading trailing : List Trivia) (ts : List Token) :
    (withOuter leading trailing ts).map Token.kind = ts.map Token.kind := by
  cases ts with
  | nil => rfl
  | cons a us =>
    obtain rfl | ⟨mid, b, rfl⟩ := List.eq_nil_or_concat' us
    · rw [withOuter_singleton]
      rfl
    · rw [withOuter_cons_concat]
      simp

theorem adjoins_of_leading {a b : Token} (hb : b.leading = []) : Adjoins a b :=
  fun h => absurd hb h

theorem isChain_modifyHead {ts : List Token} (h : ts.IsChain Adjoins) (leading : List Trivia) :
    (ts.modifyHead fun t => { t with leading := leading }).IsChain Adjoins := by
  cases h with
  | nil => exact .nil
  | singleton => exact .singleton _
  | cons_cons hab hrest => exact .cons_cons hab hrest

theorem isChain_withOuter {ts : List Token} (h : ts.IsChain Adjoins)
    (leading trailing : List Trivia) : (withOuter leading trailing ts).IsChain Adjoins := by
  have hfirst := isChain_modifyHead h leading
  rw [withOuter]
  obtain hnil | ⟨us, b, hus⟩ :=
    List.eq_nil_or_concat' (ts.modifyHead fun t => { t with leading := leading })
  · rw [hnil]
    exact .nil
  · rw [hus] at hfirst ⊢
    obtain ⟨hfront, -, hjoin⟩ := List.isChain_append.mp hfirst
    rw [List.modifyLast_concat]
    refine List.isChain_append.mpr ⟨hfront, .singleton _, ?_⟩
    rintro x hx y ⟨rfl⟩
    exact hjoin x hx b rfl

/-! ## Paths -/

/-- Kinds of names behind dots. -/
def isDotted : List TokenKind → Bool
  | [] => true
  | [_] => false
  | sign :: name :: kinds => sign == .dot && name == .identifier && isDotted kinds

/-- Kinds of the tokens of a path. -/
def isPath : List TokenKind → Bool
  | [] => false
  | first :: kinds => first.startsPath && isDotted kinds

theorem isPath_dotted (first : String) (others : List String) :
    isPath ((dotted first others).map Token.kind) = true := by
  induction others generalizing first with
  | nil => rfl
  | cons second others ih =>
    have hrest := ih second
    cases others <;> exact hrest

theorem isDotted_append : ∀ {kinds more : List TokenKind}, isDotted kinds = true →
    isDotted more = true → isDotted (kinds ++ more) = true
  | [], _, _, hmore => hmore
  | _ :: _ :: _, _, h, hmore => by
    rw [isDotted, Bool.and_eq_true] at h
    rw [List.cons_append, List.cons_append, isDotted, Bool.and_eq_true]
    exact ⟨h.1, isDotted_append h.2 hmore⟩

/-- A member of a path is one. -/
theorem isPath_member {path : List Token} {sign name : Token}
    (h : isPath (path.map Token.kind) = true) (hsign : sign.kind = .dot)
    (hname : name.kind = .identifier) : isPath ((path ++ [sign, name]).map Token.kind) = true := by
  cases path with
  | nil => cases h
  | cons t ts =>
    obtain ⟨hfirst, hothers⟩ := Bool.and_eq_true_iff.mp h
    rw [List.cons_append, List.map_cons, List.map_append, isPath, Bool.and_eq_true]
    refine ⟨hfirst, isDotted_append hothers ?_⟩
    rw [List.map_cons, List.map_singleton, hsign, hname]
    rfl

theorem dotted_place : ∀ (offset : Nat) (ts : List Token), isDotted (ts.map Token.kind) = true →
    Dotted (Lexeme.place offset ts)
  | _, [], _ => .none
  | offset, sign :: name :: ts, h => by
    simp only [List.map_cons, isDotted, Bool.and_eq_true, beq_iff_eq] at h
    exact .more h.1.1 h.1.2 (dotted_place _ ts h.2)

theorem path_place (offset : Nat) {ts : List Token} (h : isPath (ts.map Token.kind) = true) :
    Path (Lexeme.place offset ts) := by
  cases ts with
  | nil => cases h
  | cons t ts =>
    obtain ⟨hfirst, hothers⟩ := Bool.and_eq_true_iff.mp h
    exact .mk hfirst (dotted_place _ ts hothers)

theorem startsPath_last : ∀ {kinds : List TokenKind}, isPath kinds = true →
    ∀ k ∈ kinds.getLast?, k.startsPath = true
  | [first], h, k, hk => by
    obtain rfl := Option.some.inj hk
    exact (Bool.and_eq_true_iff.mp h).1
  | [_, _], h, _, _ => by simp [isPath, isDotted] at h
  | _ :: sign :: name :: kinds, h, k, hk => by
    simp only [isPath, isDotted, Bool.and_eq_true, beq_iff_eq] at h
    rw [List.getLast?_cons_cons, List.getLast?_cons_cons] at hk
    have hrest : isPath (name :: kinds) = true := by
      rw [isPath, h.2.1.2, h.2.2]
      rfl
    exact startsPath_last hrest k hk

theorem pieces_ne_nil {leading trailing : List Trivia} {ts : List Token} (h : ts ≠ []) :
    (withOuter leading trailing ts).flatMap pieces ≠ [] := by
  have hne : withOuter leading trailing ts ≠ [] := by
    intro hnil
    have hkinds := map_kind_withOuter leading trailing ts
    rw [hnil] at hkinds
    exact h (List.map_eq_nil_iff.mp hkinds.symm)
  obtain ⟨t, us, hus⟩ := List.exists_cons_of_ne_nil hne
  rw [hus, List.flatMap_cons, pieces]
  simp

/-- Without outer trivia, a path starts and ends in a word. -/
theorem isWord_pieces {ts : List Token} (h : isPath (ts.map Token.kind) = true) :
    (∀ p ∈ ((withOuter [] [] ts).flatMap pieces).head?, Piece.IsWord p) ∧
      ∀ p ∈ ((withOuter [] [] ts).flatMap pieces).getLast?, Piece.IsWord p := by
  have hlast := startsPath_last h
  cases ts with
  | nil => cases h
  | cons a us =>
    have hfirst : a.kind.startsPath = true := (Bool.and_eq_true_iff.mp h).1
    obtain rfl | ⟨mid, b, rfl⟩ := List.eq_nil_or_concat' us
    · rw [withOuter_singleton]
      exact ⟨fun p hp => ⟨_, _, _, (Option.some.inj hp).symm, hfirst⟩,
        fun p hp => ⟨_, _, _, (Option.some.inj hp).symm, hfirst⟩⟩
    · rw [← List.cons_append, List.map_append, List.map_singleton, List.getLast?_concat] at hlast
      rw [withOuter_cons_concat]
      refine ⟨fun p hp => ⟨_, _, _, (Option.some.inj hp).symm, hfirst⟩, fun p hp => ?_⟩
      have hpieces : ({ a with leading := [] } :: (mid ++ [{ b with trailing := [] }])).flatMap pieces =
          ({ a with leading := [] } :: mid).flatMap pieces ++ b.leading.map .trivia ++
            [.token b.kind b.text 0] := by
        simp [pieces]
      rw [hpieces, List.getLast?_concat] at hp
      exact ⟨_, _, _, (Option.some.inj hp).symm, hlast _ rfl⟩

/-- The token with `internal` in its place. -/
def asInternal (t : Token) : Token :=
  { ofKind (.keyword .kwInternal) with leading := t.leading, trailing := t.trailing }

/-! ## The call -/

variable {front path tail : List Token} {opener closing : Token} {ws : List Trivia} {first : String}
  {others : List String}

/-- The tokens of a call: the name has the trivia in front of the path, which stands in the parenthesis
without outer trivia. -/
def call (first : String) (others : List String) (path : List Token) : List Token :=
  ((dotted first others).modifyHead fun t => { t with leading := outerLeading path }) ++
    .ofKind .openParen :: withOuter [] [] path

theorem mayLead_last (hopener : opener.kind.opens = true)
    (hspace : opener.kind.keyword? = none ∨ opener.trailing ≠ [] ∨ ws ≠ []) :
    ∀ p ∈ ((front ++ [opener]).flatMap pieces ++ ws.map Piece.trivia).getLast?, p.MayLead := by
  have hpieces : (front ++ [opener]).flatMap pieces ++ ws.map Piece.trivia =
      front.flatMap pieces ++ opener.leading.map Piece.trivia ++ .token opener.kind opener.text 0 ::
        (opener.trailing ++ ws).map Piece.trivia := by
    simp [pieces]
  rw [hpieces]
  obtain hnil | ⟨us, u, hus⟩ := List.eq_nil_or_concat' (opener.trailing ++ ws)
  · obtain ⟨htrailing, hws⟩ := List.append_eq_nil_iff.mp hnil
    rw [hnil, List.map_nil, List.getLast?_concat]
    rintro p ⟨rfl⟩
    exact ⟨hopener, by simpa [htrailing, hws] using hspace⟩
  · rw [hus, List.map_append, ← List.cons_append, ← List.append_assoc, List.map_singleton,
      List.getLast?_concat]
    rintro p ⟨rfl⟩
    trivial

theorem pieces_call (path : List Token) : (call first others path).flatMap pieces =
    (outerLeading path).map .trivia ++ ((dotted first others).flatMap pieces ++
      .token .openParen "(" 0 :: (withOuter [] [] path).flatMap pieces) := by
  have hname : ((dotted first others).modifyHead fun t =>
        { t with leading := outerLeading path }).flatMap pieces =
      (outerLeading path).map .trivia ++ (dotted first others).flatMap pieces := by
    cases others <;> simp [dotted, pieces, bare]
  rw [call, List.flatMap_append, hname, List.flatMap_cons, List.append_assoc]
  rfl

theorem leading_dotted (first : String) (others : List String) :
    ∀ t ∈ dotted first others, t.kind ≠ .endOfFile ∧ t.trailing = [] ∧ t.leading = [] := by
  induction others generalizing first with
  | nil =>
    rintro t (_ | ⟨_, ⟨⟩⟩)
    exact ⟨nofun, rfl, rfl⟩
  | cons second others ih =>
    rw [dotted, List.forall_mem_cons, List.forall_mem_cons]
    exact ⟨⟨nofun, rfl, rfl⟩, ⟨nofun, rfl, rfl⟩, ih second⟩

theorem isChain_of_tail : ∀ {ts : List Token}, (∀ t ∈ ts.tail, t.leading = []) → ts.IsChain Adjoins
  | [], _ => .nil
  | [_], _ => .singleton _
  | _ :: b :: ts, h => by
    rw [List.tail_cons, List.forall_mem_cons] at h
    exact .cons_cons (adjoins_of_leading h.1) (isChain_of_tail h.2)

theorem head_call (first : String) (others : List String) (path : List Token) : ∃ us,
    call first others path = { bare .identifier first with leading := outerLeading path } :: us := by
  cases others <;> exact ⟨_, rfl⟩

theorem isChain_call (h : path.IsChain Adjoins) : (call first others path).IsChain Adjoins := by
  have hsplit : call first others path =
      (((dotted first others).modifyHead fun t => { t with leading := outerLeading path }) ++
        [.ofKind .openParen]) ++ withOuter [] [] path := by
    simp [call]
  rw [hsplit]
  refine List.isChain_append.mpr ⟨isChain_of_tail fun t ht => ?_, isChain_withOuter h [] [], ?_⟩
  · have hrest (ts : List Token) (f : Token → Token) (u : Token) :
        (ts.modifyHead f ++ [u]).tail ⊆ ts ++ [u] := by
      cases ts <;> simp
    rcases List.mem_append.mp (hrest _ _ _ ht) with ht | ht
    · exact (leading_dotted first others t ht).2.2
    · rw [List.mem_singleton.mp ht]
      rfl
  · intro a _ b hb
    refine adjoins_of_leading ?_
    cases path with
    | nil => cases hb
    | cons c us =>
      obtain rfl | ⟨mid, d, rfl⟩ := List.eq_nil_or_concat' us
      · rw [withOuter_singleton] at hb
        rw [← Option.some.inj hb]
      · rw [withOuter_cons_concat] at hb
        rw [← Option.some.inj hb]

theorem mem_withOuter {leading trailing : List Trivia} {ts : List Token} {t : Token}
    (h : t ∈ withOuter leading trailing ts) :
    ∃ u ∈ ts, t.kind = u.kind ∧ (t.trailing = u.trailing ∨ t.trailing = trailing) := by
  cases ts with
  | nil => cases h
  | cons a us =>
    obtain rfl | ⟨mid, b, rfl⟩ := List.eq_nil_or_concat' us
    · rw [withOuter_singleton, List.mem_singleton] at h
      exact ⟨a, List.mem_cons_self, by rw [h], .inr (by rw [h])⟩
    · rw [withOuter_cons_concat, List.mem_cons, List.mem_append, List.mem_singleton] at h
      rcases h with rfl | h | rfl
      · exact ⟨a, List.mem_cons_self, rfl, .inl rfl⟩
      · exact ⟨t, List.mem_cons_of_mem _ (List.mem_append_left _ h), rfl, .inl rfl⟩
      · exact ⟨b, List.mem_cons_of_mem _ (List.mem_append_right _ (List.mem_singleton_self b)), rfl,
          .inr rfl⟩

theorem onLine_nil : Lexeme.OnLine [] := nofun

/-- What holds of the tokens of the path holds of those of the call. -/
theorem forall_call (h : ∀ t ∈ path, t.kind ≠ .endOfFile ∧ Lexeme.OnLine t.trailing) :
    ∀ t ∈ call first others path, t.kind ≠ .endOfFile ∧ Lexeme.OnLine t.trailing := by
  intro t ht
  rw [call, List.mem_append, List.mem_cons] at ht
  rcases ht with ht | rfl | ht
  · have hhead (ts : List Token) (ws : List Trivia)
        (hts : ∀ t ∈ ts, t.kind ≠ .endOfFile ∧ t.trailing = [] ∧ t.leading = []) :
        ∀ t ∈ ts.modifyHead (fun t => { t with leading := ws }),
          t.kind ≠ .endOfFile ∧ t.trailing = [] := by
      cases ts with
      | nil => exact nofun
      | cons u us =>
        rw [List.forall_mem_cons] at hts
        exact List.forall_mem_cons.mpr ⟨⟨hts.1.1, hts.1.2.1⟩,
          fun t ht => ⟨(hts.2 t ht).1, (hts.2 t ht).2.1⟩⟩
    obtain ⟨hkind, htrailing⟩ := hhead _ _ (leading_dotted first others) t ht
    rw [htrailing]
    exact ⟨hkind, onLine_nil⟩
  · exact ⟨nofun, onLine_nil⟩
  · obtain ⟨u, hu, hkind, htrailing⟩ := mem_withOuter ht
    obtain ⟨hend, honline⟩ := h u hu
    rw [hkind]
    rcases htrailing with htrailing | htrailing <;> rw [htrailing]
    · exact ⟨hend, honline⟩
    · exact ⟨hend, onLine_nil⟩

theorem pieces_around (front : List Token) (opener : Token) {path : List Token} (tail : List Token)
    (ws : List Trivia) (hpath : path ≠ []) :
    (front ++ opener :: (path ++ tail)).flatMap pieces ++ ws.map Piece.trivia =
      (front ++ [opener]).flatMap pieces ++ (outerLeading path).map .trivia ++
        ((withOuter [] [] path).flatMap pieces ++
          ((outerTrailing path).map .trivia ++ (tail.flatMap pieces ++ ws.map .trivia))) := by
  have hpieces := pieces_outer hpath
  simp [hpieces]

theorem ne_nil_of_isPath (h : isPath (path.map Token.kind) = true) : path ≠ [] := by
  rintro rfl
  cases h

theorem split_call {sign name opening : Token} :
    front ++ opener :: (path ++ sign :: name :: opening :: tail) =
      (front ++ opener :: path ++ [sign, name]) ++ opening :: tail := by simp

section

open Repair.FormatCall

theorem separator_cases (ts : List Trivia) : separator ts = ts ∨ separator ts = .space :: ts ∧
    ∀ t ∈ ts.head?, t.kind ≠ .whitespace ∧ t.kind ≠ .endOfLine := by
  unfold separator
  split
  · exact .inl rfl
  · exact .inl rfl
  · rename_i hblank hend
    refine .inr ⟨rfl, fun t ht => ⟨fun hkind => hblank ?_, fun hkind => hend ?_⟩⟩ <;>
      rw [Option.mem_def.mp ht, ← hkind] <;> rfl

theorem onLine_separator {ts : List Trivia} (h : Lexeme.OnLine ts) :
    Lexeme.OnLine (separator ts) := by
  rcases separator_cases ts with hsame | ⟨hmore, -⟩
  · rwa [hsame]
  · rw [hmore]
    cases ts with
    | nil => exact onLine_nil
    | cons t ts =>
      have hspace : Trivia.space.kind ≠ .endOfLine := by decide
      rw [Lexeme.OnLine, List.dropLast_cons_cons]
      exact List.forall_mem_cons.mpr ⟨hspace, h⟩

theorem closesLine_separator {ts : List Trivia} (h : Lexeme.ClosesLine ts) :
    Lexeme.ClosesLine (separator ts) := by
  rcases separator_cases ts with hsame | ⟨hmore, -⟩
  · rwa [hsame]
  · rw [hmore]
    cases ts with
    | nil => cases h
    | cons t ts => rwa [Lexeme.ClosesLine, List.getLast?_cons_cons]

end

namespace Cut

/-! ### One token -/

section

variable {before before' : List Char} {t t' : Token}

/-- Every token is read by its rule. -/
theorem exists_tokenAt (h : Cut before (front ++ t :: tail) ws) :
    ∃ rest, Piece.TokenAt rest t.kind t.text.toList := by
  have hcuts := h.behind.cuts
  rw [pieces_cons, List.append_assoc] at hcuts
  obtain ⟨-, _ | ⟨hat, -⟩⟩ := Piece.cuts_append.mp hcuts
  exact ⟨_, hat⟩

theorem text_eq (h : Cut before (front ++ t :: tail) ws) (ht : t.kind ∈ Piece.punctuation) :
    t.text.toList = Piece.spelling t.kind := by
  obtain ⟨rest, hat⟩ := h.exists_tokenAt
  exact hat.spelling_eq ht

theorem text_ne_empty (h : Cut before (front ++ t :: tail) ws) : t.text ≠ "" := by
  obtain ⟨rest, hat⟩ := h.exists_tokenAt
  intro htext
  rw [htext] at hat
  exact hat.ne_nil rfl

/-- A word for accessibility is not the word that the grammar asks for. -/
theorem text_ne_operator (h : Cut before (front ++ t :: tail) ws) (ht : t.kind.isAccess = true) :
    t.text ≠ "operator" := by
  obtain ⟨rest, hat⟩ := h.exists_tokenAt
  obtain ⟨-, hspelled⟩ := hat.access ht
  intro htext
  rw [htext] at hspelled
  revert hspelled
  decide

/-- Another token may stand in the place of one, if it closes the line where that one does and the pieces
can be cut. -/
theorem exchange (h : Cut before (front ++ t :: tail) ws) (hkind : t'.kind ≠ .endOfFile)
    (hleading : t'.leading ≠ [] → t.leading ≠ [])
    (honline : Lexeme.OnLine t.trailing → Lexeme.OnLine t'.trailing)
    (hcloses : Lexeme.ClosesLine t.trailing → Lexeme.ClosesLine t'.trailing)
    (hcuts : Piece.Cuts [] before' ((front ++ t' :: tail).flatMap pieces ++ ws.map .trivia)) :
    Cut before' (front ++ t' :: tail) ws := by
  have hkinds := h.kinds
  have htrailing := h.trailing
  have hchain := h.leading
  rw [List.forall_mem_append, List.forall_mem_cons] at hkinds htrailing
  rw [List.append_assoc, List.cons_append, List.isChain_append, List.isChain_cons] at hchain
  obtain ⟨hfront, ⟨hnext, hrest⟩, hjoin⟩ := hchain
  refine ⟨?_, ?_, ?_, hcuts⟩
  · rw [List.forall_mem_append, List.forall_mem_cons]
    exact ⟨hkinds.1, hkind, hkinds.2.2⟩
  · rw [List.forall_mem_append, List.forall_mem_cons]
    exact ⟨htrailing.1, honline htrailing.2.1, htrailing.2.2⟩
  · rw [List.append_assoc, List.cons_append, List.isChain_append, List.isChain_cons]
    refine ⟨hfront, ⟨fun u hu hne => hcloses (hnext u hu hne), hrest⟩, ?_⟩
    rintro a ha b ⟨rfl⟩ hne
    exact hjoin a ha t rfl (hleading hne)

theorem access (h : Cut before (front ++ t :: tail) ws) (ht : t.kind.isAccess = true) :
    Cut before (front ++ t.asInternal :: tail) ws := by
  refine h.exchange nofun id id id ?_
  have hcuts := h.cuts
  rw [List.flatMap_append, pieces_cons, List.append_assoc, List.append_assoc, List.cons_append,
    ← List.append_assoc] at hcuts ⊢
  exact hcuts.access ht

end

/-! ### The call -/

/-- Behind a path no line starts. -/
theorem behind_path (h : Cut [] (front ++ opener :: (path ++ tail)) ws)
    (hpath : isPath (path.map Token.kind) = true) : ∃ before, Cursor.startsLine before = false ∧
      Piece.Cuts [] before
        ((outerTrailing path).map .trivia ++ (tail.flatMap pieces ++ ws.map .trivia)) := by
  have hnil := ne_nil_of_isPath hpath
  have hcuts := h.cuts
  rw [pieces_around front opener tail ws hnil] at hcuts
  obtain ⟨hword, hrest⟩ := Piece.cuts_append.mp (Piece.cuts_append.mp hcuts).2
  exact ⟨_, hword.startsLine_word (pieces_ne_nil hnil) (isWord_pieces hpath).2, hrest⟩

section

variable (hopener : opener.kind.opens = true)
  (hspace : opener.kind.keyword? = none ∨ opener.trailing ≠ [] ∨ outerLeading path ≠ [])
  (hpath : isPath (path.map Token.kind) = true) (hname : ∀ s ∈ first :: others, isIdentifier s = true)

include hopener hspace hpath hname

/-- The tokens of a path are put into a call, with what ends the argument behind them. -/
theorem wrap (h : Cut [] (front ++ opener :: (path ++ tail)) ws) {closing : Token} {behind : List Token}
    (hclosing : closing.kind = .closeParen ∨ closing.kind = .comma) (hleading : closing.leading = [])
    (hbehind : ∀ before, Cursor.startsLine before = false → Cut before (closing :: behind) ws) :
    Cut [] (front ++ opener :: (call first others path ++ closing :: behind)) ws := by
  have hnil := ne_nil_of_isPath hpath
  have hcut : Cut ['x'] ([] ++ closing :: behind) ws := hbehind _ rfl
  have hforall : ∀ u ∈ front ++ opener :: (path ++ tail),
      u.kind ≠ .endOfFile ∧ Lexeme.OnLine u.trailing := fun u hu => ⟨h.kinds u hu, h.trailing u hu⟩
  have hall : ∀ u ∈ front ++ opener :: (call first others path ++ closing :: behind),
      u.kind ≠ .endOfFile ∧ Lexeme.OnLine u.trailing := by
    rw [List.forall_mem_append, List.forall_mem_cons, List.forall_mem_append] at hforall ⊢
    exact ⟨hforall.1, hforall.2.1, forall_call hforall.2.2.1,
      fun u hu => ⟨hcut.kinds u hu, hcut.trailing u hu⟩⟩
  refine ⟨fun u hu => (hall u hu).1, fun u hu => (hall u hu).2, ?_, ?_⟩
  · -- the name adjoins the opener as the path did, and what ends the argument has no trivia in front
    have hsplit (us vs : List Token) : front ++ opener :: (us ++ vs) ++ [endOfText ws] =
        (front ++ [opener]) ++ (us ++ (vs ++ [endOfText ws])) := by simp
    have hchain := h.leading
    rw [hsplit] at hchain ⊢
    obtain ⟨hfront, hrest, hjoin⟩ := List.isChain_append.mp hchain
    obtain ⟨hinside, -, -⟩ := List.isChain_append.mp hrest
    obtain ⟨us, hus⟩ := head_call first others path
    refine List.isChain_append.mpr ⟨hfront, List.isChain_append.mpr
      ⟨isChain_call hinside, hcut.leading, ?_⟩, ?_⟩
    · rintro a _ b ⟨rfl⟩
      exact adjoins_of_leading hleading
    · rintro a ha b hb
      obtain ⟨c, cs, rfl⟩ := List.exists_cons_of_ne_nil hnil
      rw [hus] at hb
      rw [← Option.some.inj hb]
      exact hjoin a ha c rfl
  · have hwords := isWord_pieces hpath
    have hcuts := h.cuts
    rw [pieces_around front opener tail ws hnil] at hcuts
    have hnew : (front ++ opener :: (call first others path ++ closing :: behind)).flatMap pieces ++
          ws.map Piece.trivia =
        (front ++ [opener]).flatMap pieces ++ (outerLeading path).map .trivia ++
          ((dotted first others).flatMap pieces ++ .token .openParen "(" 0 ::
            ((withOuter [] [] path).flatMap pieces ++
              ((closing :: behind).flatMap pieces ++ ws.map .trivia))) := by
      simp [pieces_call]
    rw [hnew]
    refine hcuts.wrap (mayLead_last hopener hspace) (pieces_ne_nil hnil) hwords.1 hwords.2 hname ?_
      fun before hline => (hbehind before hline).cuts
    have hpunctuation : closing.kind ∈ Piece.punctuation := by
      rcases hclosing with hkind | hkind <;> rw [hkind] <;> decide
    have htext := hcut.text_eq hpunctuation
    rw [pieces_cons, hleading, List.map_nil, List.nil_append, List.cons_append, Piece.printed_cons]
    show ∀ c ∈ (closing.text.toList ++ _).head?, c = ')' ∨ c = ','
    rw [htext]
    rcases hclosing with hkind | hkind <;> rw [hkind]
    · exact fun c hc => .inl (Option.some.inj hc).symm
    · exact fun c hc => .inr (Option.some.inj hc).symm

theorem operand (h : Cut [] (front ++ opener :: (path ++ tail)) ws) :
    Cut [] (front ++ opener :: (call first others path ++
      { Token.ofKind .closeParen with trailing := outerTrailing path } :: tail)) ws := by
  obtain ⟨b, hline, hcuts⟩ := h.behind_path hpath
  obtain ⟨us, u, rfl⟩ := (List.eq_nil_or_concat' path).resolve_left (ne_nil_of_isPath hpath)
  refine h.wrap hopener hspace hpath hname (.inl rfl) rfl fun before _ => ?_
  have hsplit : front ++ opener :: (us ++ [u] ++ tail) = (front ++ opener :: us) ++ u :: tail := by simp
  have htrailing : outerTrailing (us ++ [u]) = u.trailing := by simp [outerTrailing]
  rw [hsplit] at h
  rw [htrailing] at hcuts ⊢
  -- the parenthesis has the trivia that stood behind the last token of the path
  have hrest : Cut _ ([] ++ u :: tail) ws := h.behind
  refine hrest.exchange nofun (absurd rfl) id id ?_
  rw [List.nil_append, pieces_ofKind]
  exact .cons (Piece.at_closeParen _ _) (hcuts.rebase hline.symm)

variable {sign name opening closing : Token}

/-- A call of a member without arguments becomes a call with one. -/
theorem call (h : Cut [] (front ++ opener :: (path ++ sign :: name :: opening :: closing :: tail)) ws)
    (hclosing : closing.kind = .closeParen) (hline : ¬ Lexeme.ClosesLine opening.trailing) :
    Cut [] (front ++ opener :: (call first others path ++ closing :: tail)) ws := by
  obtain ⟨b, hrest⟩ : ∃ b, Cut b ([opening] ++ closing :: tail) ws := ⟨_, (split_call ▸ h).behind⟩
  have hleading : closing.leading = [] := by
    by_contra hne
    exact hline ((List.isChain_cons.mp hrest.leading).1 closing rfl hne)
  have htext := hrest.text_eq (by rw [hclosing]; decide)
  replace hrest := hrest.behind
  refine h.wrap hopener hspace hpath hname (.inl hclosing) hleading fun before _ =>
    { hrest with cuts := hrest.cuts.rebase_of_ink ?_ }
  rw [pieces_cons, hleading, List.map_nil, List.nil_append, List.cons_append, Piece.printed_cons]
  show ∀ c ∈ (closing.text.toList ++ _).head?, _
  rw [htext, hclosing]
  rintro c ⟨rfl⟩
  exact ⟨rfl, by decide⟩

open Repair.FormatCall in
/-- A call of a member becomes a call with one argument more. -/
theorem callMore
    (h : Cut [] (front ++ opener :: (path ++ sign :: name :: opening :: closing :: tail)) ws)
    (hopening : opening.kind = .openParen) :
    Cut [] (front ++ opener :: (Token.call first others path ++
      { ofKind .comma with trailing := separator opening.trailing } :: closing :: tail)) ws := by
  obtain ⟨b, hrest⟩ : ∃ b, Cut b ([] ++ opening :: closing :: tail) ws := ⟨_, (split_call ▸ h).behind⟩
  have hcuts := hrest.cuts
  have htext := hrest.text_eq (by rw [hopening]; decide)
  rw [List.nil_append, pieces_cons, List.append_assoc, List.cons_append, List.append_assoc] at hcuts
  obtain ⟨-, _ | ⟨-, hcuts⟩⟩ := Piece.cuts_append.mp hcuts
  have hchars : (Piece.token opening.kind opening.text 0).chars = ['('] := by
    rw [hopening] at htext
    exact htext
  rw [hchars] at hcuts
  refine h.wrap hopener hspace hpath hname (.inr rfl) rfl fun before _ =>
    hrest.exchange nofun (absurd rfl) onLine_separator closesLine_separator ?_
  -- the old trivia and what follows them are read as they were behind the parenthesis
  rw [List.nil_append, pieces_ofKind]
  rcases separator_cases opening.trailing with hsame | ⟨hmore, hink⟩
  · rw [hsame]
    exact .cons (Piece.at_comma _ _) (hcuts.rebase rfl)
  rw [hmore]
  refine .cons (Piece.at_comma _ _) (.cons (Piece.at_space _ ?_) (hcuts.rebase rfl))
  cases htrailing : opening.trailing with
  | nil =>
    have hleading : closing.leading = [] := by
      by_contra hne
      have hclosed := (List.isChain_cons.mp hrest.leading).1 closing rfl hne
      rw [htrailing] at hclosed
      cases hclosed
    rw [htrailing, pieces_cons, hleading] at hcuts
    obtain _ | ⟨hat, -⟩ := hcuts
    have hat : Piece.TokenAt _ closing.kind closing.text.toList := hat
    rw [pieces_cons, hleading, List.append_nil]
    exact (Extent.stops_append hat.ne_nil).mpr hat.stops_space
  | cons u us =>
    rw [htrailing] at hcuts hink
    obtain _ | ⟨hat, -⟩ := hcuts
    have hat : Piece.TriviaAt _ _ u.kind u.text.toList := hat
    obtain ⟨hblank, hend⟩ := hink u rfl
    rw [List.append_nil]
    exact (Extent.stops_append hat.ne_nil).mpr (hat.stops_space hblank hend)

end

end Cut

end Token

end SharpLint
