import SharpLint.Proofs.Grammar.Alike
import SharpLint.Proofs.Tree.Printed

/-!
# Outer trivia are all that changes

A tree is its shape, kinds and texts, together with its tokens (`Tree.eq_of_tokens`). Other outer trivia
keep the former, and in the latter they are the only difference, wherever the first and the last token
stand and also where these are one token. So it is enough to compare tokens:

    the outer trivia that are put on last are those of the tree              (withTrivia_withTrivia)
    t.withTriviaFrom t = t                                                     (withTriviaFrom_self)
    t.trimmed.trimmed = t.trimmed                                                  (trimmed_trimmed)
-/

namespace SharpLint.Tree

/-! ## Shape and tokens -/

mutual

theorem tokens_withoutTrivia : (t : Tree) →
    t.withoutTrivia.tokens = t.tokens.map Token.withoutTrivia
  | .token _ => rfl
  | .node _ cs => tokensOf_withoutTriviaOf cs

theorem tokensOf_withoutTriviaOf : (cs : List Tree) →
    tokensOf (withoutTriviaOf cs) = (tokensOf cs).map Token.withoutTrivia
  | [] => rfl
  | c :: cs => by
    rw [withoutTriviaOf, tokensOf, tokensOf, tokens_withoutTrivia c, tokensOf_withoutTriviaOf cs,
      List.map_append]

end

theorem length_tokens_eq {t u : Tree} (h : t.withoutTrivia = u.withoutTrivia) :
    t.tokens.length = u.tokens.length := by
  have htokens := congrArg (fun t => t.tokens.length) h
  simpa only [tokens_withoutTrivia, List.length_map] using htokens

mutual

/-- A tree is determined by what it is without trivia, and by its tokens. -/
theorem eq_of_tokens : (t u : Tree) → t.withoutTrivia = u.withoutTrivia → t.tokens = u.tokens → t = u
  | .token _, .token _, _, h => congrArg Tree.token (List.singleton_inj.mp h)
  | .token _, .node _ _, hshape, _ => nomatch hshape
  | .node _ _, .token _, hshape, _ => nomatch hshape
  | .node k cs, .node l ds, hshape, h => by
    obtain ⟨rfl, hchildren⟩ := Tree.node.inj hshape
    rw [eqOf_of_tokensOf cs ds hchildren h]

theorem eqOf_of_tokensOf : (cs ds : List Tree) → withoutTriviaOf cs = withoutTriviaOf ds →
    tokensOf cs = tokensOf ds → cs = ds
  | [], [], _, _ => rfl
  | [], _ :: _, hshape, _ => nomatch hshape
  | _ :: _, [], hshape, _ => nomatch hshape
  | c :: cs, d :: ds, hshape, h => by
    obtain ⟨hfirst, hothers⟩ := List.cons.inj hshape
    -- the first trees have as many tokens, so that the tokens are divided at the same place
    obtain ⟨htokens, htokensOf⟩ := List.append_inj h (length_tokens_eq hfirst)
    rw [eq_of_tokens c d hfirst htokens, eqOf_of_tokensOf cs ds hothers htokensOf]

end

/-! ## Shape under other outer trivia -/

section

variable {f : Token → Token}

theorem KeepsWord.withoutTrivia (hf : KeepsWord f) (t : Token) :
    (f t).withoutTrivia = t.withoutTrivia := by
  rw [Token.withoutTrivia, Token.withoutTrivia, hf.kind, hf.text]

mutual

theorem withoutTrivia_mapFirst (hf : KeepsWord f) : (t : Tree) →
    (t.mapFirst f).withoutTrivia = t.withoutTrivia
  | .token t => congrArg Tree.token (hf.withoutTrivia t)
  | .node k cs => congrArg (Tree.node k) (withoutTriviaOf_mapFirstOf hf cs)

theorem withoutTriviaOf_mapFirstOf (hf : KeepsWord f) : (cs : List Tree) →
    withoutTriviaOf (mapFirstOf f cs) = withoutTriviaOf cs
  | [] => rfl
  | c :: cs => by
    rw [mapFirstOf]
    split
    · rw [withoutTriviaOf, withoutTriviaOf, withoutTrivia_mapFirst hf c]
    · rw [withoutTriviaOf, withoutTriviaOf, withoutTriviaOf_mapFirstOf hf cs]

end

mutual

theorem withoutTrivia_mapLast (hf : KeepsWord f) : (t : Tree) →
    (t.mapLast f).withoutTrivia = t.withoutTrivia
  | .token t => congrArg Tree.token (hf.withoutTrivia t)
  | .node k cs => congrArg (Tree.node k) (withoutTriviaOf_mapLastOf hf cs)

theorem withoutTriviaOf_mapLastOf (hf : KeepsWord f) : (cs : List Tree) →
    withoutTriviaOf (mapLastOf f cs) = withoutTriviaOf cs
  | [] => rfl
  | c :: cs => by
    rw [mapLastOf]
    split
    · rw [withoutTriviaOf, withoutTriviaOf, withoutTriviaOf_mapLastOf hf cs]
    · rw [withoutTriviaOf, withoutTriviaOf, withoutTrivia_mapLast hf c]

end

end

variable {t : Tree}

theorem withoutTrivia_withTrivia (t : Tree) (leading trailing : List Trivia) :
    ((t.withLeading leading).withTrailing trailing).withoutTrivia = t.withoutTrivia := by
  rw [withTrailing, withoutTrivia_mapLast (keepsWord_trailing trailing), withLeading,
    withoutTrivia_mapFirst (keepsWord_leading leading)]

/-! ## Tokens with other outer trivia -/

section

variable {leading trailing leading' trailing' : List Trivia} (ts : List Token)

theorem withOuter_withOuter : withOuter leading' trailing' (withOuter leading trailing ts) =
    withOuter leading' trailing' ts := by
  cases ts with
  | nil => rfl
  | cons a us =>
    obtain rfl | ⟨mid, b, rfl⟩ := List.eq_nil_or_concat' us
    · simp only [withOuter_singleton]
    · simp only [withOuter_cons_concat]

/-- Behind the first token leading trivia are inner ones. -/
theorem tail_withOuter :
    (withOuter leading trailing ts).tail.map Token.leading = ts.tail.map Token.leading := by
  cases ts with
  | nil => rfl
  | cons a us =>
    obtain rfl | ⟨mid, b, rfl⟩ := List.eq_nil_or_concat' us
    · rw [withOuter_singleton]
      rfl
    · simp only [withOuter_cons_concat, List.tail_cons, List.map_append, List.map_cons, List.map_nil]

/-- In front of the last token trailing trivia are inner ones. -/
theorem dropLast_withOuter :
    (withOuter leading trailing ts).dropLast.map Token.trailing = ts.dropLast.map Token.trailing := by
  cases ts with
  | nil => rfl
  | cons a us =>
    obtain rfl | ⟨mid, b, rfl⟩ := List.eq_nil_or_concat' us
    · rw [withOuter_singleton]
      rfl
    · rw [withOuter_cons_concat, ← List.cons_append, ← List.cons_append, List.dropLast_concat,
        List.dropLast_concat, List.map_cons, List.map_cons]

end

/-! ## Trees with other outer trivia -/

/-- The outer trivia that are put on last count. -/
theorem withTrivia_withTrivia (t : Tree) (leading trailing leading' trailing' : List Trivia) :
    (((t.withLeading leading).withTrailing trailing).withLeading leading').withTrailing trailing' =
      (t.withLeading leading').withTrailing trailing' := by
  refine eq_of_tokens _ _ ?_ ?_
  · simp only [withoutTrivia_withTrivia]
  · simp only [tokens_withTrivia, withOuter_withOuter]

theorem withTriviaFrom_self (t : Tree) : t.withTriviaFrom t = t := by
  refine eq_of_tokens _ _ (withoutTrivia_withTrivia t _ _) ?_
  rw [withTriviaFrom, tokens_withTrivia, withOuter_self]

theorem text_withTriviaFrom (h : t.tokens ≠ []) (other : Tree) :
    (t.withTriviaFrom other).text = t.text :=
  text_of_tokens h (tokens_withTrivia t _ _)

/-! ## Trimmed trees -/

theorem keptTrivia_keptTrivia (ts : List Trivia) : keptTrivia (keptTrivia ts) = keptTrivia ts := by
  unfold keptTrivia
  split
  · rfl
  · rfl

/-- What is not kept has no comment. -/
theorem filter_keptTrivia (ts : List Trivia) :
    (keptTrivia ts).filter (·.kind.isComment) = ts.filter (·.kind.isComment) := by
  unfold keptTrivia
  split
  · rfl
  · rename_i hnone
    symm
    simpa using hnone

theorem outer_trimmed (t : Tree) :
    t.trimmed.leading = keptTrivia t.leading ∧ t.trimmed.trailing = keptTrivia t.trailing := by
  by_cases h : t.tokens = []
  · have htokens : t.trimmed.tokens = [] := by
      rw [trimmed, tokens_withTrivia, h]
      rfl
    simp only [leading_eq, trailing_eq, h, htokens]
    exact ⟨rfl, rfl⟩
  · exact outer_of_tokens h (tokens_withTrivia t _ _)

theorem trimmed_trimmed (t : Tree) : t.trimmed.trimmed = t.trimmed := by
  obtain ⟨hleading, htrailing⟩ := outer_trimmed t
  rw [trimmed, hleading, htrailing, keptTrivia_keptTrivia, keptTrivia_keptTrivia]
  exact withTrivia_withTrivia t _ _ _ _

/-- A trimmed tree has the comments of the tree, in the same order. -/
theorem comments_trimmed (t : Tree) :
    t.trimmed.trivia.filter (·.kind.isComment) = t.trivia.filter (·.kind.isComment) := by
  by_cases h : t.tokens = []
  · rw [trimmed, trivia, trivia, tokens_withTrivia, h]
    rfl
  · have htrivia : t.trimmed.trivia =
        keptTrivia t.leading ++ t.innerTrivia ++ keptTrivia t.trailing := by
      rw [trivia, trimmed, tokens_withTrivia, flatMap_withOuter h, innerTrivia]
    rw [htrivia, trivia_eq t]
    simp only [List.filter_append, filter_keptTrivia]

/-- With the outer trivia of another tree, a tree with a token has these, and is the same otherwise:
its shape, kinds and texts, and the trivia between its tokens, each at its token. A tree has its own
outer trivia already, and trimming a tree again changes nothing and never takes a comment. -/
theorem outerTrivia_laws (t : Tree) :
    (t.tokens ≠ [] → ∀ other : Tree,
      (t.withTriviaFrom other).leading = other.leading ∧
      (t.withTriviaFrom other).trailing = other.trailing ∧
      (t.withTriviaFrom other).withoutTrivia = t.withoutTrivia ∧
      (t.withTriviaFrom other).tokens.tail.map Token.leading = t.tokens.tail.map Token.leading ∧
      (t.withTriviaFrom other).tokens.dropLast.map Token.trailing =
        t.tokens.dropLast.map Token.trailing ∧
      (t.withTriviaFrom other).text = t.text) ∧
    t.withTriviaFrom t = t ∧
    t.trimmed.trimmed = t.trimmed ∧
    t.trimmed.trivia.filter (·.kind.isComment) = t.trivia.filter (·.kind.isComment) := by
  refine ⟨fun h other => ?_, withTriviaFrom_self t, trimmed_trimmed t, comments_trimmed t⟩
  obtain ⟨hleading, htrailing⟩ := outer_withTriviaFrom h other
  have htokens : (t.withTriviaFrom other).tokens =
      withOuter other.leading other.trailing t.tokens := tokens_withTrivia t _ _
  refine ⟨hleading, htrailing, withoutTrivia_withTrivia t _ _, ?_, ?_, text_withTriviaFrom h other⟩
  · rw [htokens, tail_withOuter]
  · rw [htokens, dropLast_withOuter]

/-- A negated name with a comment in it, behind a child without a token and in front of another. -/
def negated : Tree :=
  .node .prefixUnaryExpression
    [.node .modifierList [],
      .node .argument [.token ⟨.minus, "-", [.space], [⟨.multiLineComment, "/* b */"⟩]⟩],
      .node .identifierName [.token ⟨.identifier, "a", [.space], [⟨.endOfLine, "\n"⟩]⟩],
      .node .modifierList []]

/-- One token, which is the first and the last. -/
def indented : Tree :=
  .node .identifierName
    [.token ⟨.identifier, "x", [⟨.whitespace, "  "⟩], [⟨.singleLineComment, "// c"⟩]⟩]

theorem outerTrivia_laws_negated :
    negated.tokens ≠ [] ∧
      (negated.withTriviaFrom indented).leading = [⟨.whitespace, "  "⟩] ∧
      (negated.withTriviaFrom indented).trailing = [⟨.singleLineComment, "// c"⟩] ∧
      (negated.withTriviaFrom indented).withoutTrivia = negated.withoutTrivia ∧
      (negated.withTriviaFrom indented).tokens.tail.map Token.leading = [[.space]] ∧
      (negated.withTriviaFrom indented).tokens.dropLast.map Token.trailing =
        [[⟨.multiLineComment, "/* b */"⟩]] ∧
      (negated.withTriviaFrom indented).text = negated.text ∧
      negated.withTriviaFrom negated = negated ∧
      negated.trimmed.trimmed = negated.trimmed ∧
      negated.trimmed.trivia.filter (·.kind.isComment) = [⟨.multiLineComment, "/* b */"⟩] := by
  have htokens : negated.tokens ≠ [] := by decide
  obtain ⟨hother, hself, htrimmed, hcomments⟩ := outerTrivia_laws negated
  obtain ⟨hleading, htrailing, hshape, hinner, hinner', htext⟩ := hother htokens indented
  exact ⟨htokens, hleading.trans (by decide), htrailing.trans (by decide), hshape,
    hinner.trans (by decide), hinner'.trans (by decide), htext, hself, htrimmed,
    hcomments.trans (by decide)⟩

end SharpLint.Tree
