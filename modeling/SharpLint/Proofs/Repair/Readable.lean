import SharpLint.Proofs.Grammar.CarryUnit
import SharpLint.Proofs.Lexeme.Exchange

/-!
# Tokens whose text can be read

Tokens are readable when their text is read into them and the grammar accepts them. What a fix does to
tokens keeps that, under conditions on what stands around them:

    an operand, or a call of a member, that is put into a call          (operand, call, callMore)
    a word for accessibility that becomes `internal`                     (access)

An operand is read as one wherever the token in front of it opens an operand (`TokenKind.opens`). Where
it opens a whole expression, which could be a type as well, the token behind has to be `+`.
-/

namespace SharpLint

open SharpLint.Tree

/-- Kinds that a body or the end of a declaration starts with. -/
def TokenKind.startsBody : TokenKind → Bool
  | .openBrace | .semicolon | .arrow | .endOfFile => true
  | _ => false

namespace Token

structure Readable (body : List Token) (ws : List Trivia) : Prop where
  cut : Cut [] body ws
  accepted : ∃ t, compilationUnit (Lexeme.place 0 (body ++ [endOfText ws])) = .ok t

/-! ## In front of a site -/

/-- Behind a word `operator`, a parenthesis comes before the tokens end. -/
def closesOperator : List Token → Bool
  | [] => true
  | t :: ts => (t.text != "operator" || ts.any (·.kind == .openParen)) && closesOperator ts

/-- The tokens end in one that an operand follows; a word stands apart from the operand. -/
def opensOperand (front operand : List Token) : Bool :=
  closesOperator front && front.getLast?.any fun opener => opener.kind.opens &&
    (opener.kind.keyword?.isNone || opener.trailing != [] || outerLeading operand != [])

/-- There is a bracket directly in front of the last token. -/
def bracketBefore (front : List Token) : Bool :=
  front.dropLast.getLast?.any (·.kind == .closeBracket)

variable {front path tail : List Token} {opener closing : Token} {ws : List Trivia} {first : String}
  {others : List String}

theorem exists_opener (h : opensOperand front path = true) : ∃ before opener,
    front = before ++ [opener] ∧ closesOperator (before ++ [opener]) = true ∧
      opener.kind.opens = true ∧
      (opener.kind.keyword? = none ∨ opener.trailing ≠ [] ∨ outerLeading path ≠ []) := by
  obtain ⟨hoperator, hlast⟩ := Bool.and_eq_true_iff.mp h
  obtain rfl | ⟨before, opener, rfl⟩ := List.eq_nil_or_concat' front
  · cases hlast
  · rw [List.getLast?_concat, Option.any_some, Bool.and_eq_true] at hlast
    exact ⟨before, opener, rfl, hoperator, hlast.1, by simpa [or_assoc] using hlast.2⟩

theorem bracketBefore_concat (before : List Token) (opener : Token) :
    bracketBefore (before ++ [opener]) = before.getLast?.any (·.kind == .closeBracket) := by
  rw [bracketBefore, List.dropLast_concat]

theorem leads_place {σ : Site} {before : List Token} (offset : Nat)
    (hoperator : closesOperator (before ++ [σ.opener.token]) = true)
    (hkinds : ∀ t ∈ before, t.kind ≠ .endOfFile)
    (hbracket : before.getLast?.any (·.kind == .closeBracket) = true → σ.bracket = true) :
    σ.Leads (Lexeme.place offset before) := by
  induction before generalizing offset with
  | nil => trivial
  | cons t ts ih =>
    rw [List.cons_append, closesOperator, Bool.and_eq_true, Bool.or_eq_true] at hoperator
    rw [List.forall_mem_cons] at hkinds
    refine ⟨hkinds.1, fun htext => ?_, fun hkind hnil => ?_, ih _ hoperator.2 hkinds.2 fun hlast => ?_⟩
    · have hparen := hoperator.1.resolve_left (by simpa using htext)
      have htokens : (Lexeme.place (offset + byteLength t.fullChars) ts ++ [σ.opener]).map Lexeme.token =
          ts ++ [σ.opener.token] := by simp
      rw [← htokens, List.any_map, List.any_eq_true] at hparen
      obtain ⟨p, hp, hkind⟩ := hparen
      exact ⟨p, hp, beq_iff_eq.mp hkind⟩
    · cases ts with
      | nil => exact hbracket (beq_iff_eq.mpr hkind)
      | cons u us => cases hnil
    · cases ts with
      | nil => cases hlast
      | cons u us => exact hbracket (by rwa [List.getLast?_cons_cons])

/-! ## Behind a site -/

/-- The kind of the token that comes first, or that of the end. -/
def nextKind (ts : List Token) : TokenKind := (ts.head?.map Token.kind).getD .endOfFile

/-- What comes behind an operand shows that it is one: `+` where a whole expression may stand, and no body
where an accessor may stand. -/
def closesOperand (front behind : List Token) : Bool :=
  (!(front.getLast?.any (·.kind.opensWhole)) || nextKind behind == .plus) &&
    (!bracketBefore front || !(nextKind behind).startsBody)

theorem kindAhead_place (offset : Nat) (ts : List Token) :
    kindAhead 0 (Lexeme.place offset ts) = nextKind ts := by
  cases ts <;> rfl

theorem atBody_place (offset : Nat) (ts : List Token) :
    Grammar.atBody (Lexeme.place offset ts) = (nextKind ts).startsBody := by
  rw [Grammar.atBody, atKind, atKind, atKind, atEnd, atKind, kindAhead_place]
  cases nextKind ts <;> rfl

/-! ## The exchange -/

theorem exists_place_call (offset : Nat) (first : String) (others : List String)
    (path rest : List Token) : ∃ name paren m n, Path name ∧ paren.token.kind = .openParen ∧
      Lexeme.place offset (call first others path ++ rest) =
        name ++ paren :: (Lexeme.place m (withOuter [] [] path) ++ Lexeme.place n rest) := by
  have hkinds : ((dotted first others).modifyHead fun t =>
        { t with leading := outerLeading path }).map Token.kind =
      (dotted first others).map Token.kind := by
    cases others <;> rfl
  rw [call, List.append_assoc, Lexeme.place_append, List.cons_append, Lexeme.place,
    Lexeme.place_append]
  exact ⟨_, _, _, _, path_place _ (hkinds ▸ isPath_dotted first others), rfl, rfl⟩

/-- The site behind a token. -/
def siteBehind (before : List Token) (opener : Token) (old new : List Token) : Site where
  bracket := before.getLast?.any (·.kind == .closeBracket)
  opener := ⟨opener,
    0 + byteLength (before.flatMap fullChars) + byteLength (Trivia.chars opener.leading)⟩
  old := Lexeme.place (0 + byteLength (before.flatMap fullChars) + byteLength opener.fullChars) old
  new := Lexeme.place (0 + byteLength (before.flatMap fullChars) + byteLength opener.fullChars) new

namespace Readable

/-- Where the new tokens can be cut and the grammar reads them in the place of the old ones, they are
readable. -/
theorem exchange {old new : List Token} (h : Readable (front ++ old) ws)
    (hopens : opensOperand front path = true)
    (hcut : Cut [] (front ++ new) ws)
    (hswap : ∀ offset, Swap (front.getLast?.any (·.kind.opensWhole) = true) (bracketBefore front = true)
      (Lexeme.place offset (old ++ [endOfText ws])) (Lexeme.place offset (new ++ [endOfText ws]))) :
    Readable (front ++ new) ws := by
  obtain ⟨before, opener, rfl, hoperator, hopener, -⟩ := exists_opener hopens
  obtain ⟨t, ht⟩ := h.accepted
  let σ := siteBehind before opener (old ++ [endOfText ws]) (new ++ [endOfText ws])
  have hplace (ts : List Token) : Lexeme.place 0 (before ++ [opener] ++ ts ++ [endOfText ws]) =
      Lexeme.place 0 before ++ σ.opener :: Lexeme.place
        (0 + byteLength (before.flatMap fullChars) + byteLength opener.fullChars)
        (ts ++ [endOfText ws]) := by
    rw [List.append_assoc, List.append_assoc, Lexeme.place_append]
    rfl
  have hleads : σ.Leads (Lexeme.place 0 before) :=
    leads_place 0 hoperator (fun u hu => h.cut.kinds u (by simp [hu])) id
  have hfits : σ.Fits := by
    refine ⟨⟨hopener, ?_⟩, ?_⟩
    · have hlast : ∀ ts : List Token, closesOperator (ts ++ [opener]) = true →
          opener.text ≠ "operator" := by
        intro ts
        induction ts with
        | nil => simp [closesOperator]
        | cons u us ih =>
          intro hts
          rw [List.cons_append, closesOperator, Bool.and_eq_true] at hts
          exact ih hts.2
      exact hlast _ hoperator
    · have := hswap (0 + byteLength (before.flatMap fullChars) + byteLength opener.fullChars)
      rwa [List.getLast?_concat, bracketBefore_concat] at this
  rw [hplace] at ht
  exact ⟨hcut, hplace new ▸ compilationUnit_carried hfits (.before hleads) ht⟩

theorem operand (h : Readable (front ++ (path ++ tail)) ws) (hopens : opensOperand front path = true)
    (hcloses : closesOperand front (tail ++ [endOfText ws]) = true)
    (hpath : isPath (path.map Token.kind) = true)
    (hname : ∀ s ∈ first :: others, isIdentifier s = true) :
    Readable (front ++ (call first others path ++
      { ofKind .closeParen with trailing := outerTrailing path } :: tail)) ws := by
  refine h.exchange hopens ?_ fun offset => ?_
  · obtain ⟨before, opener, rfl, -, hopener, hspace⟩ := exists_opener hopens
    have hcut := h.cut
    rw [List.append_assoc, List.singleton_append] at hcut ⊢
    exact hcut.operand hopener hspace hpath hname
  · obtain ⟨name, paren, m, n, hnamed, hparen, hplace⟩ := exists_place_call offset first others path
      ({ ofKind .closeParen with trailing := outerTrailing path } :: (tail ++ [endOfText ws]))
    have hkinds : ∀ t ∈ tail, t.kind ≠ .endOfFile := fun t ht => h.cut.kinds t (by simp [ht])
    simp only [closesOperand, Bool.and_eq_true, Bool.or_eq_true, Bool.not_eq_true'] at hcloses
    rw [List.append_assoc, List.append_assoc, List.cons_append, hplace, Lexeme.place_append,
      Lexeme.place]
    refine .operand (path_place _ hpath) hnamed (path_place _ (by rwa [map_kind_withOuter])) hparen rfl
      (fun hwhole => ?_) (fun hbracket => ?_) (Lexeme.same_place_self tail ws hkinds _ _)
    · rw [kindAhead_place]
      exact beq_iff_eq.mp (hcloses.1.resolve_left (by rw [hwhole]; decide))
    · rw [atBody_place]
      exact hcloses.2.resolve_left (by rw [hbracket]; decide)

variable {sign name opening : Token}

/-- A member of a path, a parenthesis, and what follows it. -/
theorem place_member (offset : Nat) (path rest : List Token) (sign name opening : Token) : ∃ m n,
    Lexeme.place offset (path ++ sign :: name :: opening :: rest) =
      Lexeme.place offset (path ++ [sign, name]) ++ ⟨opening, m⟩ :: Lexeme.place n rest := by
  have hsplit : path ++ sign :: name :: opening :: rest = (path ++ [sign, name]) ++ opening :: rest := by
    simp
  rw [hsplit, Lexeme.place_append, Lexeme.place]
  exact ⟨_, _, rfl⟩

theorem call (h : Readable (front ++ (path ++ sign :: name :: opening :: closing :: tail)) ws)
    (hopens : opensOperand front path = true) (hpath : isPath (path.map Token.kind) = true)
    (hname : ∀ s ∈ first :: others, isIdentifier s = true) (hsign : sign.kind = .dot)
    (hmember : name.kind = .identifier) (hopening : opening.kind = .openParen)
    (hclosing : closing.kind = .closeParen) (hline : ¬ Lexeme.ClosesLine opening.trailing) :
    Readable (front ++ (Token.call first others path ++ closing :: tail)) ws := by
  refine h.exchange hopens ?_ fun offset => ?_
  · obtain ⟨before, opener, rfl, -, hopener, hspace⟩ := exists_opener hopens
    have hcut := h.cut
    rw [List.append_assoc, List.singleton_append] at hcut ⊢
    exact hcut.call hopener hspace hpath hname hclosing hline
  · have hkinds : ∀ t ∈ closing :: tail, t.kind ≠ .endOfFile := fun t ht =>
      h.cut.kinds t (by simp only [List.mem_append, List.mem_cons] at ht ⊢; tauto)
    obtain ⟨_, _, hold⟩ :=
      place_member offset path (closing :: tail ++ [endOfText ws]) sign name opening
    obtain ⟨_, _, _, _, hnamed, hparen, hnew⟩ := exists_place_call offset first others path
      (closing :: tail ++ [endOfText ws])
    rw [List.append_assoc, List.append_assoc, hnew]
    simp only [List.cons_append] at hold ⊢
    rw [hold]
    exact .call (path_place _ (isPath_member hpath hsign hmember)) hnamed
      (path_place _ (by rwa [map_kind_withOuter])) hopening hparen ((kindAhead_place _ _).trans hclosing)
      (Lexeme.same_place_self _ ws hkinds _ _)

open Repair.FormatCall in
theorem callMore (h : Readable (front ++ (path ++ sign :: name :: opening :: closing :: tail)) ws)
    (hopens : opensOperand front path = true) (hpath : isPath (path.map Token.kind) = true)
    (hname : ∀ s ∈ first :: others, isIdentifier s = true) (hsign : sign.kind = .dot)
    (hmember : name.kind = .identifier) (hopening : opening.kind = .openParen)
    (hclosing : closing.kind ≠ .closeParen) :
    Readable (front ++ (Token.call first others path ++
      { ofKind .comma with trailing := separator opening.trailing } :: closing :: tail)) ws := by
  refine h.exchange hopens ?_ fun offset => ?_
  · obtain ⟨before, opener, rfl, -, hopener, hspace⟩ := exists_opener hopens
    have hcut := h.cut
    rw [List.append_assoc, List.singleton_append] at hcut ⊢
    exact hcut.callMore hopener hspace hpath hname hopening
  · have hkinds : ∀ t ∈ closing :: tail, t.kind ≠ .endOfFile := fun t ht =>
      h.cut.kinds t (by simp only [List.mem_append, List.mem_cons] at ht ⊢; tauto)
    obtain ⟨_, _, hold⟩ :=
      place_member offset path (closing :: tail ++ [endOfText ws]) sign name opening
    obtain ⟨_, _, _, _, hnamed, hparen, hnew⟩ := exists_place_call offset first others path
      ({ ofKind .comma with trailing := separator opening.trailing } ::
        (closing :: tail ++ [endOfText ws]))
    rw [List.append_assoc, List.append_assoc]
    simp only [List.cons_append] at hold hnew ⊢
    rw [hold, hnew, Lexeme.place]
    exact .callMore (path_place _ (isPath_member hpath hsign hmember)) hnamed
      (path_place _ (by rwa [map_kind_withOuter])) hopening hparen
      hclosing rfl
      (Lexeme.same_place_self _ ws hkinds _ _)

/-- A word for accessibility becomes `internal`. -/
theorem access {word : Token} (h : Readable (front ++ word :: tail) ws)
    (hword : word.kind.isAccess = true) : Readable (front ++ word.asInternal :: tail) ws := by
  obtain ⟨t, ht⟩ := h.accepted
  refine ⟨h.cut.access hword, compilationUnit_same (Lexeme.same_place ws ?_ h.cut.kinds 0 0) ht⟩
  have hsame (ts : List Token) : List.Forall₂ (fun a b => Lexeme.Near ⟨a, 0⟩ ⟨b, 0⟩) ts ts :=
    List.forall₂_same.mpr fun _ _ => .inl rfl
  have htext : (ofKind (.keyword .kwInternal)).text ≠ "operator" := by decide
  have hnear : Lexeme.Near ⟨word, 0⟩ ⟨word.asInternal, 0⟩ :=
    .inr ⟨⟨hword, h.cut.text_ne_operator hword⟩, rfl, htext⟩
  exact List.rel_append (hsame front) (.cons hnear (hsame tail))

end Readable

end Token

end SharpLint
