import SharpLint.Proofs.Tree.Trivia

/-!
# What built trees print

With other outer trivia a tree prints these around the same text:

    ((t.withLeading l).withTrailing r).fullChars =
      Trivia.chars l ++ t.text.toList ++ Trivia.chars r                   (fullChars_withTrivia)

A path prints its segments with dots, a list of arguments its arguments with commas, so that a call is
printed as `callText` says (`fullChars_call`).
-/

namespace SharpLint

namespace Tree

/-! ## Other outer trivia -/

/-- Only the outer trivia of the tokens depend on which they are. -/
theorem exists_core_withOuter {ts : List Token} (h : ts ≠ []) :
    ∃ core, ∀ leading trailing, (withOuter leading trailing ts).flatMap Token.fullChars =
      Trivia.chars leading ++ core ++ Trivia.chars trailing := by
  obtain ⟨a, us, rfl⟩ := List.exists_cons_of_ne_nil h
  obtain rfl | ⟨mid, b, rfl⟩ := List.eq_nil_or_concat' us
  · exact ⟨a.text.toList, fun leading trailing => by simp [withOuter_singleton, Token.fullChars]⟩
  · refine ⟨a.text.toList ++ Trivia.chars a.trailing ++ mid.flatMap Token.fullChars ++
      Trivia.chars b.leading ++ b.text.toList, fun leading trailing => ?_⟩
    simp [withOuter_cons_concat, Token.fullChars]

theorem withOuter_self (t : Tree) : withOuter t.leading t.trailing t.tokens = t.tokens := by
  rw [leading_eq, trailing_eq]
  cases htokens : t.tokens with
  | nil => rfl
  | cons a us =>
    obtain rfl | ⟨mid, b, rfl⟩ := List.eq_nil_or_concat' us
    · exact withOuter_singleton _ _ a
    · have hlast : (a :: (mid ++ [b])).getLast? = some b := by
        rw [← List.cons_append, List.getLast?_concat]
      rw [hlast, withOuter_cons_concat]
      rfl

/-- With other outer trivia, tokens print the text of their tree between them. -/
theorem fullChars_of_tokens {t u : Tree} {leading trailing : List Trivia} (ht : t.tokens ≠ [])
    (h : u.tokens = withOuter leading trailing t.tokens) :
    u.fullChars = Trivia.chars leading ++ t.text.toList ++ Trivia.chars trailing := by
  obtain ⟨core, hcore⟩ := exists_core_withOuter ht
  have hself : t.fullChars = Trivia.chars t.leading ++ core ++ Trivia.chars t.trailing := by
    rw [← hcore, withOuter_self, fullChars]
  rw [fullChars, h, hcore, text_of_core hself]

theorem fullChars_withTrivia {t : Tree} (h : t.tokens ≠ []) (leading trailing : List Trivia) :
    ((t.withLeading leading).withTrailing trailing).fullChars =
      Trivia.chars leading ++ t.text.toList ++ Trivia.chars trailing :=
  fullChars_of_tokens h (tokens_withTrivia t leading trailing)

theorem fullChars_withTriviaFrom {t : Tree} (h : t.tokens ≠ []) (other : Tree) :
    (t.withTriviaFrom other).fullChars =
      Trivia.chars other.leading ++ t.text.toList ++ Trivia.chars other.trailing :=
  fullChars_withTrivia h _ _

/-- The outer trivia of a tree are those of its tokens. -/
theorem outer_of_tokens {t : Tree} {ts : List Token} {leading trailing : List Trivia} (hts : ts ≠ [])
    (h : t.tokens = withOuter leading trailing ts) : t.leading = leading ∧ t.trailing = trailing := by
  obtain ⟨a, us, rfl⟩ := List.exists_cons_of_ne_nil hts
  rw [leading_eq, trailing_eq, h]
  obtain rfl | ⟨mid, b, rfl⟩ := List.eq_nil_or_concat' us
  · rw [withOuter_singleton]
    exact ⟨rfl, rfl⟩
  · rw [withOuter_cons_concat, ← List.cons_append, List.getLast?_concat]
    exact ⟨rfl, rfl⟩

/-- Other outer trivia leave the text as it is. -/
theorem text_of_tokens {t u : Tree} {leading trailing : List Trivia} (ht : t.tokens ≠ [])
    (h : u.tokens = withOuter leading trailing t.tokens) : u.text = t.text := by
  obtain ⟨hleading, htrailing⟩ := outer_of_tokens ht h
  refine String.toList_inj.mp (text_of_core ?_)
  rw [hleading, htrailing]
  exact fullChars_of_tokens ht h

theorem outer_withTriviaFrom {t : Tree} (h : t.tokens ≠ []) (other : Tree) :
    (t.withTriviaFrom other).leading = other.leading ∧
      (t.withTriviaFrom other).trailing = other.trailing :=
  outer_of_tokens h (tokens_withTrivia t _ _)

theorem tokens_withLeading (t : Tree) (leading : List Trivia) :
    (t.withLeading leading).tokens = withOuter leading t.trailing t.tokens := by
  rw [withLeading, tokens_mapFirst, trailing_eq]
  cases htokens : t.tokens with
  | nil => rfl
  | cons a us =>
    obtain rfl | ⟨mid, b, rfl⟩ := List.eq_nil_or_concat' us
    · exact (withOuter_singleton _ _ a).symm
    · rw [← List.cons_append, List.getLast?_concat, List.cons_append, withOuter_cons_concat]
      rfl

/-- Other leading trivia leave the text as it is. -/
theorem text_withLeading {t : Tree} (h : t.tokens ≠ []) (leading : List Trivia) :
    (t.withLeading leading).text = t.text :=
  text_of_tokens h (tokens_withLeading t leading)

/-- A tree without outer trivia prints its text. -/
theorem text_of_outer {t : Tree} (hleading : t.leading = []) (htrailing : t.trailing = []) :
    t.text.toList = t.fullChars := by
  refine text_of_core ?_
  rw [hleading, htrailing]
  exact (List.append_nil _).symm

theorem leading_of_trivia {t : Tree} (h : t.trivia = []) : t.leading = [] := by
  rw [trivia_eq] at h
  exact (List.append_eq_nil_iff.mp (List.append_eq_nil_iff.mp h).1).1

theorem trailing_of_trivia {t : Tree} (h : t.trivia = []) : t.trailing = [] := by
  rw [trivia_eq] at h
  exact (List.append_eq_nil_iff.mp h).2

theorem fullChars_node_cons (k : NodeKind) (c : Tree) (cs : List Tree) :
    (Tree.node k (c :: cs)).fullChars = c.fullChars ++ (tokensOf cs).flatMap Token.fullChars := by
  rw [fullChars_node, tokensOf, List.flatMap_append]
  rfl

end Tree

/-! ## Parts that are joined -/

theorem joinWith_cons (sep first : String) {others : List String} (h : others ≠ []) :
    joinWith sep (first :: others) = first ++ sep ++ joinWith sep others := by
  obtain ⟨second, others, rfl⟩ := List.exists_cons_of_ne_nil h
  rfl

/-- Parts behind the first one come with what separates them. -/
theorem toList_joinWith (sep first : String) (others : List String) :
    (joinWith sep (first :: others)).toList =
      first.toList ++ others.flatMap fun part => sep.toList ++ part.toList := by
  induction others generalizing first with
  | nil => exact (List.append_nil _).symm
  | cons second others ih =>
    rw [joinWith_cons sep first (List.cons_ne_nil _ _), String.toList_append, String.toList_append,
      ih, List.flatMap_cons]
    simp only [List.append_assoc]

/-! ## Built trees -/

namespace Build

open SharpLint.Tree

/-- A call as it is printed. -/
def callText (callee : String) (arguments : List String) : String :=
  joinWith "." (segments callee) ++ "(" ++ joinWith ", " arguments ++ ")"

theorem fullChars_identifierName (name : String) : (identifierName name).fullChars = name.toList := by
  simp [identifierName, fullChars_node, tokensOf, tokens, Token.bare, Token.fullChars, Trivia.chars]

theorem fullChars_memberAccess (receiver : Tree) (name : String) :
    (memberAccess receiver name).fullChars = receiver.fullChars ++ ".".toList ++ name.toList := by
  have hname := fullChars_identifierName name
  have hdot : (Build.token .dot).fullChars = ".".toList := by decide
  rw [memberAccess, fullChars_node_cons, tokensOf, tokensOf, tokensOf, List.flatMap_append,
    List.flatMap_append]
  change _ ++ ((Build.token .dot).fullChars ++ ((identifierName name).fullChars ++ [])) = _
  rw [hname, hdot, List.append_nil, List.append_assoc]

/-- A path prints its segments with dots between them. -/
theorem fullChars_dotted {path : String} {t : Tree} (h : dotted? path = some t) :
    t.fullChars = (joinWith "." (segments path)).toList := by
  unfold dotted? at h
  split at h
  · cases h
  rename_i first others hsegments
  obtain rfl := Option.some.inj h
  have hchain : ∀ receiver : Tree, (others.foldl memberAccess receiver).fullChars =
      receiver.fullChars ++ others.flatMap fun part => ".".toList ++ part.toList := by
    clear h hsegments
    induction others with
    | nil => exact fun _ => (List.append_nil _).symm
    | cons name others ih =>
      intro receiver
      rw [List.foldl_cons, ih, fullChars_memberAccess, List.flatMap_cons]
      simp only [List.append_assoc]
  rw [hsegments, toList_joinWith, hchain, fullChars_identifierName]

/-- Trees with commas between them print their texts with commas and spaces. -/
theorem fullChars_commaSeparated (ts : List Tree) :
    (tokensOf (commaSeparated ts)).flatMap Token.fullChars =
      (joinWith ", " (ts.map Tree.fullText)).toList := by
  fun_induction commaSeparated ts with
  | case1 => rfl
  | case2 t => simp [tokensOf, joinWith, fullText, fullChars]
  | case3 t ts hts ih =>
    have hmap : ts.map Tree.fullText ≠ [] := by simpa using hts
    have hcomma : ({ Token.ofKind .comma with trailing := [.space] } : Token).fullChars =
        ", ".toList := by decide
    rw [List.map_cons, joinWith_cons _ _ hmap, String.toList_append, String.toList_append, ← ih]
    simp only [tokensOf, tokens, List.flatMap_append, List.flatMap_cons, List.flatMap_nil,
      List.append_nil, hcomma, fullText, String.toList_ofList, fullChars, List.append_assoc]

theorem fullChars_argumentList (ts : List Tree) :
    (argumentList ts).fullChars = ("(" ++ joinWith ", " (ts.map Tree.fullText) ++ ")").toList := by
  have hopen : (Token.ofKind .openParen).fullChars = "(".toList := by decide
  have hclose : (Token.ofKind .closeParen).fullChars = ")".toList := by decide
  simp only [argumentList, Build.token, fullChars_node, tokensOf_append, tokensOf, tokens,
    List.flatMap_append, List.flatMap_cons, List.flatMap_nil, List.append_nil, hopen, hclose,
    fullChars_commaSeparated, String.toList_append]

theorem fullChars_argument (value : Tree) : (argument value).fullChars = value.fullChars := by
  rw [argument, fullChars_node_cons, tokensOf]
  exact List.append_nil _

/-- A call prints its path, and the arguments in parentheses. -/
theorem fullChars_call {callee : String} {path : Tree} (hpath : dotted? callee = some path)
    (values : List Tree) : (call path (argumentList (values.map argument))).fullChars =
      (callText callee (values.map Tree.fullText)).toList := by
  have hvalues : (values.map argument).map Tree.fullText = values.map Tree.fullText := by
    rw [List.map_map]
    exact List.map_congr_left fun t _ => congrArg String.ofList (fullChars_argument t)
  have hone (t : Tree) : (tokensOf [t]).flatMap Token.fullChars = t.fullChars := by
    rw [tokensOf, tokensOf, List.append_nil, fullChars]
  rw [call, fullChars_node_cons, hone, fullChars_dotted hpath, fullChars_argumentList, hvalues,
    callText]
  simp only [String.toList_append, List.append_assoc]

theorem fullText_stringLiteral (value : String) :
    (stringLiteral value).fullText = literalText value := by
  simp [stringLiteral, fullText, fullChars_node, tokensOf, tokens, Token.bare, Token.fullChars,
    Trivia.chars]

end Build

end SharpLint
