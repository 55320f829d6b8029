import SharpLint.Proofs.Change.Exchange
import SharpLint.Proofs.Repair.Readable

/-!
# Edits after which a text can be read

An edit exchanges the tokens of one node. What it may do is said for the tokens in front of the node,
those behind it, and the old and the new ones:

    Formats front behind old new      a path, or a call of a member of a path, is put into a call
    Accesses front behind old new     one word for accessibility becomes `internal`

Both keep the tokens readable, and what is exchanged further to the right does not matter for them
(`Keeps`). So edits that are made from right to left keep them readable (`readable_replaceTargets`).
-/

namespace SharpLint

open SharpLint.Tree Node

namespace Token

/-- The tokens are read from their own text, and the grammar accepts them. -/
def IsReadable (ts : List Token) : Prop := ∃ body ws, ts = body ++ [endOfText ws] ∧ Readable body ws

variable {front behind old new : List Token}

/-! ## The end of the text -/

/-- Behind a token that is not the end, the end comes. -/
theorem exists_body {us body : List Token} {u : Token} {ws : List Trivia}
    (hu : u.kind ≠ .endOfFile) (h : us ++ u :: behind = body ++ [endOfText ws]) :
    ∃ tail, behind = tail ++ [endOfText ws] ∧ body = us ++ u :: tail := by
  obtain rfl | ⟨tail, t, rfl⟩ := List.eq_nil_or_concat' behind
  · rw [List.append_singleton_inj] at h
    rw [h.2] at hu
    exact absurd rfl hu
  · rw [← List.cons_append, ← List.append_assoc, List.append_singleton_inj] at h
    obtain ⟨rfl, rfl⟩ := h
    exact ⟨tail, rfl, rfl⟩

/-! ## Formatting -/

/-- What formatting does to the tokens of a path, or of a call of a member of a path. -/
inductive Formats (front behind : List Token) : List Token → List Token → Prop
  | operand {path : List Token} {first : String} {others : List String} :
      isPath (path.map Token.kind) = true → opensOperand front path = true →
      closesOperand front behind = true → (∀ s ∈ first :: others, isIdentifier s = true) →
      Formats front behind path
        (call first others path ++ [{ ofKind .closeParen with trailing := outerTrailing path }])
  | call {path : List Token} {first : String} {others : List String}
      {sign name opening closing : Token} :
      isPath (path.map Token.kind) = true → opensOperand front path = true →
      (∀ s ∈ first :: others, isIdentifier s = true) → sign.kind = .dot → name.kind = .identifier →
      opening.kind = .openParen → closing.kind = .closeParen →
      ¬ Lexeme.ClosesLine opening.trailing →
      Formats front behind (path ++ [sign, name, opening, closing]) (call first others path ++ [closing])
  | callMore {path arguments : List Token} {first : String} {others : List String}
      {sign name opening closing : Token} :
      isPath (path.map Token.kind) = true → opensOperand front path = true →
      (∀ s ∈ first :: others, isIdentifier s = true) → sign.kind = .dot → name.kind = .identifier →
      opening.kind = .openParen → closing.kind = .closeParen →
      nextKind (arguments ++ [closing]) ≠ .closeParen →
      Formats front behind (path ++ sign :: name :: opening :: (arguments ++ [closing]))
        (call first others path ++ { ofKind .comma with
          trailing := Repair.FormatCall.separator opening.trailing } :: (arguments ++ [closing]))

theorem opens_of_startsPath {k : TokenKind} (h : k.startsPath = true) :
    k ≠ .endOfFile ∧ k.opens = false := by
  constructor
  · rintro rfl
    cases h
  · cases k with
    | keyword w => cases w <;> first | rfl | cases h
    | _ => first | rfl | cases h

namespace Formats

theorem opens (h : Formats front behind old new) : ∃ path, opensOperand front path = true := by
  cases h with
  | operand _ hopens _ _ => exact ⟨_, hopens⟩
  | call _ hopens => exact ⟨_, hopens⟩
  | callMore _ hopens => exact ⟨_, hopens⟩

/-- The last token is one of a path, or a parenthesis. -/
theorem exists_last (h : Formats front behind old new) : ∃ us u, old = us ++ [u] ∧
    u.kind ≠ .endOfFile ∧ u.kind.opens = false := by
  cases h with
  | operand hpath _ _ _ =>
    have hlast := startsPath_last hpath
    obtain ⟨us, u, rfl⟩ := (List.eq_nil_or_concat' _).resolve_left (ne_nil_of_isPath hpath)
    rw [List.map_append, List.map_singleton, List.getLast?_concat] at hlast
    exact ⟨us, u, rfl, opens_of_startsPath (hlast _ rfl)⟩
  | @call path first others sign name opening closing _ _ _ _ _ _ hclosing =>
    refine ⟨path ++ [sign, name, opening], closing, by simp, ?_⟩
    rw [hclosing]
    exact ⟨nofun, rfl⟩
  | @callMore path arguments first others sign name opening closing _ _ _ _ _ _ hclosing =>
    refine ⟨path ++ sign :: name :: opening :: arguments, closing, by simp, ?_⟩
    rw [hclosing]
    exact ⟨nofun, rfl⟩

/-- Of what stands behind the node, only the first token matters. -/
theorem behind_congr {behind' : List Token} (h : Formats front behind old new)
    (hnext : nextKind behind' = nextKind behind) : Formats front behind' old new := by
  cases h with
  | operand hpath hopens hcloses hname =>
    refine .operand hpath hopens ?_ hname
    rwa [closesOperand, hnext]
  | call hpath hopens hname hsign hmember hopening hclosing hline =>
    exact .call hpath hopens hname hsign hmember hopening hclosing hline
  | callMore hpath hopens hname hsign hmember hopening hclosing hnext =>
    exact .callMore hpath hopens hname hsign hmember hopening hclosing hnext

theorem readable (h : Formats front behind old new) (hread : IsReadable (front ++ old ++ behind)) :
    IsReadable (front ++ new ++ behind) := by
  obtain ⟨us, u, hu, hend, -⟩ := h.exists_last
  obtain ⟨body, ws, heq, hread⟩ := hread
  have hsplit : front ++ old ++ behind = (front ++ us) ++ u :: behind := by
    rw [hu]
    simp
  obtain ⟨tail, rfl, rfl⟩ := exists_body hend (hsplit.symm.trans heq)
  have hbody : front ++ us ++ u :: tail = front ++ (old ++ tail) := by
    rw [hu]
    simp
  rw [hbody] at hread
  refine ⟨front ++ (new ++ tail), ws, by simp, ?_⟩
  cases h with
  | operand hpath hopens hcloses hname =>
    have := hread.operand hopens hcloses hpath hname
    simpa using this
  | @call path _ _ sign name opening closing hpath hopens hname hsign hmember hopening hclosing hline =>
    have hread : Readable (front ++ (path ++ sign :: name :: opening :: closing :: tail)) ws := by
      simpa using hread
    have := hread.call hopens hpath hname hsign hmember hopening hclosing hline
    simpa using this
  | @callMore path arguments _ _ sign name opening closing hpath hopens hname hsign hmember hopening
      hclosing hnext =>
    obtain ⟨next, more, hmore⟩ := List.exists_cons_of_ne_nil
      (List.append_ne_nil_of_right_ne_nil arguments (List.cons_ne_nil closing []))
    rw [hmore] at hread hnext ⊢
    have hread : Readable (front ++ (path ++ sign :: name :: opening :: next :: (more ++ tail))) ws := by
      simpa using hread
    have := hread.callMore hopens hpath hname hsign hmember hopening hnext
    simpa using this

end Formats

/-! ## Words for accessibility -/

/-- One word for accessibility becomes `internal`. -/
def Accesses (_front _behind old new : List Token) : Prop := ∃ us word tail,
  old = us ++ word :: tail ∧ new = us ++ word.asInternal :: tail ∧ word.kind.isAccess = true

theorem Accesses.exists_body (h : Accesses front behind old new)
    (hread : IsReadable (front ++ old ++ behind)) : ∃ us word tail more ws,
      old = us ++ word :: tail ∧ new = us ++ word.asInternal :: tail ∧ word.kind.isAccess = true ∧
        tail ++ behind = more ++ [endOfText ws] ∧ Readable (front ++ us ++ word :: more) ws := by
  obtain ⟨us, word, tail, rfl, rfl, hword⟩ := h
  obtain ⟨body, ws, heq, hread⟩ := hread
  have hend : word.kind ≠ .endOfFile := by
    intro hkind
    rw [hkind] at hword
    cases hword
  have hsplit : front ++ us ++ word :: (tail ++ behind) = body ++ [endOfText ws] := by
    simpa using heq
  obtain ⟨more, hmore, rfl⟩ := Token.exists_body hend hsplit
  exact ⟨us, word, tail, more, ws, rfl, rfl, hword, hmore, hread⟩

/-! ## Edits from right to left -/

/-- What exchanges tokens keeps them readable, and it may be done further to the right first. -/
structure Keeps (P : List Token → List Token → List Token → List Token → Prop) : Prop where
  readable {front behind old new : List Token} : P front behind old new →
    IsReadable (front ++ old ++ behind) → IsReadable (front ++ new ++ behind)
  starts {front behind old new : List Token} : P front behind old new →
    IsReadable (front ++ old ++ behind) → new ≠ [] ∧ StartsWithText new
  earlier {front gap behind old new old' new' : List Token} :
    P front (gap ++ (old' ++ behind)) old new → P (front ++ old ++ gap) behind old' new' →
      P front (gap ++ (new' ++ behind)) old new

theorem keeps_accesses : Keeps Accesses where
  readable h hread := by
    obtain ⟨us, word, tail, more, ws, rfl, rfl, hword, hmore, hread⟩ := h.exists_body hread
    refine ⟨_, ws, ?_, hread.access hword⟩
    simpa using hmore
  starts h hread := by
    obtain ⟨us, word, tail, more, ws, rfl, rfl, hword, hmore, hread⟩ := h.exists_body hread
    refine ⟨List.append_ne_nil_of_right_ne_nil _ (List.cons_ne_nil _ _), ?_⟩
    cases us with
    | nil =>
      rintro t ⟨rfl⟩
      show (ofKind (.keyword .kwInternal)).text ≠ ""
      decide
    | cons u us =>
      rintro t ⟨rfl⟩
      have hcut := hread.cut
      rw [List.append_assoc, List.cons_append] at hcut
      exact hcut.text_ne_empty
  earlier h _ := h

theorem keeps_formats : Keeps Formats where
  readable h hread := h.readable hread
  starts h _ := by
    have hcall {path more : List Token} {first : String} {others : List String}
        (hname : ∀ s ∈ first :: others, isIdentifier s = true) :
        call first others path ++ more ≠ [] ∧ StartsWithText (call first others path ++ more) := by
      obtain ⟨us, hus⟩ := head_call first others path
      rw [hus]
      refine ⟨List.cons_ne_nil _ _, ?_⟩
      rintro t ⟨rfl⟩
      show first ≠ ""
      rintro rfl
      exact absurd (hname "" List.mem_cons_self) (by decide)
    cases h with
    | operand _ _ _ hname => exact hcall hname
    | call _ _ hname => exact hcall hname
    | callMore _ _ hname => exact hcall hname
  earlier {front gap _ _ _ _ _} h hright := by
    refine h.behind_congr ?_
    cases gap with
    | cons t ts => rfl
    | nil =>
      -- the token in front of the other node would be the last one of this node
      obtain ⟨us, u, rfl, -, hcloses⟩ := h.exists_last
      obtain ⟨path, hopens⟩ := hright.opens
      obtain ⟨before, opener, hfront, -, hopener, -⟩ := exists_opener hopens
      rw [List.append_nil, ← List.append_assoc, List.append_singleton_inj] at hfront
      rw [hfront.2, hopener] at hcloses
      cases hcloses

end Token

open Token

variable {P : List Token → List Token → List Token → List Token → Prop} {root new : Tree}

/-- The edit exchanges tokens of the tree as `P` allows. -/
def Edit.Exchanges (P : List Token → List Token → List Token → List Token → Prop) (root : Tree)
    (e : Edit) : Prop :=
  ∃ n, (Node.root root).findNode? e.target e.kind = some n ∧
    ∀ front behind, root.tokens = front ++ n.tree.tokens ++ behind → n.offset = fullWidths front →
      P front behind n.tree.tokens e.replacement.tokens

/-- Edits that are made from right to left keep the tokens readable. -/
theorem readable_replaceTargets (document : DocumentId) (hP : Keeps P) {edits : List Located}
    (h : FitsFromRight root edits) (hedits : ∀ l ∈ edits, l.edit.Exchanges P root)
    (hread : IsReadable root.tokens)
    (hok : replaceTargets document root (edits.map Located.edit) = .ok new) :
    IsReadable new.tokens := by
  induction edits generalizing root with
  | nil =>
    obtain rfl := Except.ok.inj hok
    exact hread
  | cons l edits ih =>
    obtain ⟨n, hn, hfull, hlater, hstays⟩ := h.step
    rw [List.map_cons, replaceTargets_cons document hn] at hok
    rw [List.forall_mem_cons] at hedits
    have hfront := (List.pairwise_cons.mp h.sorted).1
    obtain ⟨front, behind, hold, hnew, hoffset⟩ :=
      (replaced_of_findNode? l.edit.replacement hn).exists_tokens
    rw [tokens_tree_root] at hold
    rw [Nat.zero_add] at hoffset
    obtain ⟨_, hn', hexchange⟩ := hedits.1
    obtain rfl := Option.some.inj (hn.symm.trans hn')
    have hP' := hexchange front behind hold hoffset
    rw [hold] at hread
    obtain ⟨hne, hstarts⟩ := hP.starts hP' hread
    refine ih hlater (fun k hk => ?_) (hnew ▸ hP.readable hP' hread) hok
    -- the target of `k` comes before that of `l`
    obtain ⟨m, hm, hkept⟩ := hedits.2 k hk
    obtain ⟨m', hm'⟩ : ∃ m', (Node.root (n.replaceWith l.edit.replacement)).findNode? k.edit.target
        k.edit.kind = some m' := by
      obtain ⟨-, m', -, hm', -⟩ := hstays k hk
      exact ⟨m', hm'⟩
    obtain ⟨_, hfound, hplace, htree⟩ := (hstays k hk).tree_eq hm'
    obtain rfl := Option.some.inj (hm.symm.trans hfound)
    simp only [place, Prod.mk.injEq] at hplace
    refine ⟨m', hm', fun left behind' hsplit hleft => ?_⟩
    have hstop : fullWidths (left ++ m'.tree.tokens) ≤ fullWidths front := by
      obtain ⟨_, hm'', hkfull⟩ := h.holds k (List.mem_cons_of_mem l hk)
      obtain rfl := Option.some.inj (hm.symm.trans hm'')
      have hle := hfront k hk
      rw [hkfull, hfull] at hle
      have hwidth := m.tree.width_eq_fullWidths
      simp only [fullSpan, Span.ofLength] at hle
      rw [fullWidths_append, htree]
      omega
    rw [hnew, List.append_assoc] at hsplit
    obtain ⟨gap, rfl, rfl⟩ := exists_gap hsplit.symm hstop (startsWithText_append hne hstarts behind)
    rw [htree] at hold hP' ⊢
    exact hP.earlier (hkept left (gap ++ (n.tree.tokens ++ behind)) (by simp [hold]) (by omega)) hP'

end SharpLint
