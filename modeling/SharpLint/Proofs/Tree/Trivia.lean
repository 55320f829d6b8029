import Mathlib.Data.List.Basic
import Mathlib.Data.List.ModifyLast
import SharpLint.Proofs.Tree.Build
import SharpLint.Proofs.Tree.Slice

/-!
# Trivia of trees

The trivia of a tree are those before its first token, those after its last token, and the inner ones
in between. Other outer trivia leave the inner ones alone:

    t.trivia = t.leading ++ t.innerTrivia ++ t.trailing                          (trivia_eq)
    (t.withTriviaFrom other).trivia =
      other.leading ++ t.innerTrivia ++ other.trailing                (trivia_withTriviaFrom)

Built trees have no comments of their own. So the comments of a changed tree are those of its parts,
and what is missing can be counted (`LosesOnly`).
-/

namespace SharpLint

/-- All trivia of a token. -/
def Token.trivia (t : Token) : List Trivia := t.leading ++ t.trailing

namespace Tree

/-- All trivia, in source order. -/
def trivia (t : Tree) : List Trivia := t.tokens.flatMap Token.trivia

/-- All trivia of several trees. -/
def triviaOf (cs : List Tree) : List Trivia := (tokensOf cs).flatMap Token.trivia

@[simp] theorem trivia_token (t : Token) : (Tree.token t).trivia = t.leading ++ t.trailing :=
  List.append_nil _

@[simp] theorem trivia_node (k : NodeKind) (cs : List Tree) : (Tree.node k cs).trivia = triviaOf cs :=
  rfl

@[simp] theorem triviaOf_nil : triviaOf [] = [] := rfl

@[simp] theorem triviaOf_cons (c : Tree) (cs : List Tree) :
    triviaOf (c :: cs) = c.trivia ++ triviaOf cs := List.flatMap_append

@[simp] theorem triviaOf_append (as bs : List Tree) :
    triviaOf (as ++ bs) = triviaOf as ++ triviaOf bs := by
  rw [triviaOf, tokensOf_append, List.flatMap_append]
  rfl

theorem triviaOf_map_token (ts : List Token) :
    triviaOf (ts.map .token) = ts.flatMap Token.trivia := by
  induction ts with
  | nil => rfl
  | cons t ts ih =>
    rw [List.map_cons, triviaOf_cons, ih, trivia_token]
    rfl

/-! ## A child changed -/

section

variable {cs : List Tree} {i : Nat} {t : Tree}

theorem exists_split_of_getElem? (h : cs[i]? = some t) :
    ∃ left right, cs = left ++ t :: right ∧ left.length = i := by
  obtain ⟨hi, rfl⟩ := List.getElem?_eq_some_iff.mp h
  refine ⟨cs.take i, cs.drop (i + 1), ?_, List.length_take_of_le (Nat.le_of_lt hi)⟩
  rw [← List.drop_eq_getElem_cons hi, List.take_append_drop]

/-- The trivia of a child give way to those of another tree. -/
theorem count_triviaOf_set (h : cs[i]? = some t) (w : Tree) (c : Trivia) :
    (triviaOf (cs.set i w)).count c + t.trivia.count c =
      (triviaOf cs).count c + w.trivia.count c := by
  obtain ⟨left, right, rfl, rfl⟩ := exists_split_of_getElem? h
  simp only [List.set_append_right _ _ (Nat.le_refl _), Nat.sub_self, List.set_cons_zero,
    triviaOf_append, triviaOf_cons, List.count_append]
  omega

/-- The trivia of a child are gone with the child. -/
theorem count_triviaOf_eraseIdx (h : cs[i]? = some t) (c : Trivia) :
    (triviaOf cs).count c = (triviaOf (cs.eraseIdx i)).count c + t.trivia.count c := by
  obtain ⟨left, right, rfl, rfl⟩ := exists_split_of_getElem? h
  simp only [List.eraseIdx_append_of_length_le (Nat.le_refl _), Nat.sub_self, List.eraseIdx_cons_zero,
    triviaOf_append, triviaOf_cons, List.count_append]
  omega

end

/-! ## Outer and inner trivia -/

theorem hasToken_iff {t : Tree} : t.hasToken = true ↔ t.tokens ≠ [] := by
  rw [hasToken, firstToken?_eq_head?, List.isSome_head?]

section

variable (f : Token → Token)

mutual

theorem tokens_mapFirst : (t : Tree) → (t.mapFirst f).tokens = t.tokens.modifyHead f
  | .token _ => rfl
  | .node _ cs => tokensOf_mapFirstOf cs

theorem tokensOf_mapFirstOf : (cs : List Tree) →
    tokensOf (mapFirstOf f cs) = (tokensOf cs).modifyHead f
  | [] => rfl
  | c :: cs => by
    rw [mapFirstOf]
    split
    · rename_i htoken
      obtain ⟨u, us, hus⟩ := List.exists_cons_of_ne_nil (hasToken_iff.mp htoken)
      rw [tokensOf, tokensOf, tokens_mapFirst c, hus]
      rfl
    · rename_i htoken
      have hnone : c.tokens = [] := by simpa using mt hasToken_iff.mpr htoken
      rw [tokensOf, tokensOf, tokensOf_mapFirstOf cs, hnone]
      rfl

end

mutual

theorem tokens_mapLast : (t : Tree) → (t.mapLast f).tokens = t.tokens.modifyLast f
  | .token _ => rfl
  | .node _ cs => tokensOf_mapLastOf cs

theorem tokensOf_mapLastOf : (cs : List Tree) →
    tokensOf (mapLastOf f cs) = (tokensOf cs).modifyLast f
  | [] => rfl
  | c :: cs => by
    rw [mapLastOf, lastTokenOf?_eq_getLast?]
    split
    · rename_i htoken
      have hne : tokensOf cs ≠ [] := by simpa using htoken
      rw [tokensOf, tokensOf, tokensOf_mapLastOf cs, List.modifyLast_append_of_right_ne_nil f _ _ hne]
    · rename_i htoken
      have hnone : tokensOf cs = [] := by simpa using htoken
      rw [tokensOf, tokensOf, tokens_mapLast c, hnone, List.append_nil, List.append_nil]

end

end

/-- The tokens with other trivia before the first and after the last. -/
def withOuter (leading trailing : List Trivia) (ts : List Token) : List Token :=
  (ts.modifyHead fun t => { t with leading := leading }).modifyLast
    fun t => { t with trailing := trailing }

theorem tokens_withTrivia (t : Tree) (leading trailing : List Trivia) :
    ((t.withLeading leading).withTrailing trailing).tokens =
      withOuter leading trailing t.tokens := by
  rw [withTrailing, tokens_mapLast, withLeading, tokens_mapFirst]
  rfl

/-- Trivia but those before the first token and after the last one. -/
def innerTrivia (t : Tree) : List Trivia := (withOuter [] [] t.tokens).flatMap Token.trivia

theorem withOuter_singleton (leading trailing : List Trivia) (a : Token) :
    withOuter leading trailing [a] = [{ a with leading := leading, trailing := trailing }] :=
  List.modifyLast_concat _ _ []

theorem withOuter_cons_concat (leading trailing : List Trivia) (a : Token) (mid : List Token)
    (b : Token) : withOuter leading trailing (a :: (mid ++ [b])) =
      { a with leading := leading } :: (mid ++ [{ b with trailing := trailing }]) :=
  List.modifyLast_concat _ _ (_ :: mid)

theorem flatMap_withOuter {ts : List Token} (h : ts ≠ []) (leading trailing : List Trivia) :
    (withOuter leading trailing ts).flatMap Token.trivia =
      leading ++ (withOuter [] [] ts).flatMap Token.trivia ++ trailing := by
  obtain ⟨a, us, rfl⟩ := List.exists_cons_of_ne_nil h
  obtain rfl | ⟨mid, b, rfl⟩ := List.eq_nil_or_concat' us
  · simp [withOuter_singleton, Token.trivia]
  · simp [withOuter_cons_concat, Token.trivia]

theorem leading_eq (t : Tree) : t.leading = (t.tokens.head?.map Token.leading).getD [] := by
  rw [leading, firstToken?_eq_head?]

theorem trailing_eq (t : Tree) : t.trailing = (t.tokens.getLast?.map Token.trailing).getD [] := by
  rw [trailing, lastToken?_eq_getLast?]

/-- The trivia of a tree are the outer and the inner ones. -/
theorem trivia_eq (t : Tree) : t.trivia = t.leading ++ t.innerTrivia ++ t.trailing := by
  rw [leading_eq, trailing_eq, trivia, innerTrivia]
  cases htokens : t.tokens with
  | nil => rfl
  | cons a us =>
    obtain rfl | ⟨mid, b, rfl⟩ := List.eq_nil_or_concat' us
    · simp [withOuter_singleton, Token.trivia]
    · have hlast : (a :: (mid ++ [b])).getLast? = some b := by
        rw [← List.cons_append, List.getLast?_concat]
      rw [hlast, withOuter_cons_concat]
      simp [Token.trivia]

/-- Other outer trivia leave the inner ones as they are. -/
theorem trivia_withTriviaFrom {t : Tree} (h : t.tokens ≠ []) (other : Tree) :
    (t.withTriviaFrom other).trivia = other.leading ++ t.innerTrivia ++ other.trailing := by
  rw [trivia, withTriviaFrom, tokens_withTrivia, flatMap_withOuter h, innerTrivia]

/-- A first child with a token has the leading trivia. -/
theorem leading_node_cons (k : NodeKind) {c : Tree} (h : c.tokens ≠ []) (cs : List Tree) :
    (Tree.node k (c :: cs)).leading = c.leading := by
  obtain ⟨u, us, hus⟩ := List.exists_cons_of_ne_nil h
  rw [leading_eq, leading_eq, tokens, tokensOf, hus]
  rfl

/-- The last children, when there is a token among them, have the trailing trivia. -/
theorem trailing_node_append (k l : NodeKind) (as : List Tree) {bs : List Tree}
    (h : tokensOf bs ≠ []) : (Tree.node k (as ++ bs)).trailing = (Tree.node l bs).trailing := by
  obtain ⟨us, u, hus⟩ := (List.eq_nil_or_concat' (tokensOf bs)).resolve_left h
  rw [trailing_eq, trailing_eq, tokens, tokens, tokensOf_append, hus, ← List.append_assoc,
    List.getLast?_concat, List.getLast?_concat]

theorem trailing_node_concat (k : NodeKind) (as : List Tree) {t : Tree} (h : t.tokens ≠ []) :
    (Tree.node k (as ++ [t])).trailing = t.trailing := by
  have hone : tokensOf [t] = t.tokens := List.append_nil _
  rw [trailing_node_append k k as (hone ▸ h), trailing_eq, trailing_eq, tokens, hone]

/-! ## Comments -/

/-- Every comment of the old tree occurs in the new one at least as often. -/
def KeepsComments (old new : Tree) : Prop :=
  ∀ c : Trivia, c.kind.isComment = true → old.trivia.count c ≤ new.trivia.count c

/-- Every comment of the old tree occurs in the new one or among the lost trivia, as often as it
did. -/
def LosesOnly (lost : List Trivia) (old new : Tree) : Prop :=
  ∀ c : Trivia, c.kind.isComment = true → old.trivia.count c = new.trivia.count c + lost.count c

theorem LosesOnly.keepsComments_iff {lost : List Trivia} {old new : Tree}
    (h : LosesOnly lost old new) :
    KeepsComments old new ↔ ∀ c ∈ lost, c.kind.isComment = false := by
  constructor
  · intro hkeeps c hc
    rw [Bool.eq_false_iff]
    intro hcomment
    have hpos := List.count_pos_iff.mpr hc
    have hall := h c hcomment
    have hle := hkeeps c hcomment
    omega
  · intro hnone c hcomment
    have hzero : lost.count c = 0 := List.count_eq_zero.mpr fun hc => by
      rw [hnone c hc] at hcomment
      cases hcomment
    rw [h c hcomment, hzero]
    exact Nat.le_refl _

/-- To decide it, the comments of the old tree are enough. -/
instance (old new : Tree) : Decidable (KeepsComments old new) :=
  decidable_of_iff (∀ c ∈ old.trivia, c.kind.isComment = true →
      old.trivia.count c ≤ new.trivia.count c) <| by
    refine ⟨fun h c hc => ?_, fun h c _ hc => h c hc⟩
    by_cases hmem : c ∈ old.trivia
    · exact h c hmem hc
    · rw [List.count_eq_zero.mpr hmem]
      exact Nat.zero_le _

end Tree

/-! ## Built trees -/

namespace Build

open SharpLint.Tree

variable {c : Trivia}

theorem trivia_memberAccess (receiver : Tree) (name : String) :
    (memberAccess receiver name).trivia = receiver.trivia := by
  simp [memberAccess, identifierName, token, Token.ofKind, Token.bare]

/-- A path carries no trivia. -/
theorem trivia_dotted {path : String} {t : Tree} (h : dotted? path = some t) : t.trivia = [] := by
  unfold dotted? at h
  split at h
  · cases h
  · rename_i first others _
    obtain rfl := Option.some.inj h
    have hfirst : (identifierName first).trivia = [] := rfl
    refine List.foldlRecOn others memberAccess (motive := fun t => t.trivia = []) hfirst
      fun t ht name _ => ?_
    rw [trivia_memberAccess, ht]

theorem count_cons_space (hc : c.kind.isComment = true) (ts : List Trivia) :
    (Trivia.space :: ts).count c = ts.count c := by
  refine List.count_cons_of_ne fun h => ?_
  rw [← h] at hc
  cases hc

theorem triviaOf_map_argument (ts : List Tree) : triviaOf (ts.map argument) = triviaOf ts := by
  induction ts with
  | nil => rfl
  | cons t ts ih => simp [ih, argument]

/-- Between arguments there are no comments. -/
theorem count_commaSeparated (hc : c.kind.isComment = true) (ts : List Tree) :
    (triviaOf (commaSeparated ts)).count c = (triviaOf ts).count c := by
  fun_induction commaSeparated ts with
  | case1 => rfl
  | case2 t => rfl
  | case3 t ts hts ih =>
    have hcomma : (Tree.token { Token.ofKind .comma with trailing := [.space] }).trivia =
        [Trivia.space] := rfl
    simp only [triviaOf_cons, List.count_append, ih, hcomma, count_cons_space hc,
      List.count_nil, Nat.zero_add]

theorem count_argumentList (hc : c.kind.isComment = true) (ts : List Tree) :
    (argumentList ts).trivia.count c = (triviaOf ts).count c := by
  have hopen : (token .openParen).trivia = [] := rfl
  have hclose : (token .closeParen).trivia = [] := rfl
  simp only [argumentList, trivia_node, triviaOf_append, triviaOf_cons, triviaOf_nil, hopen, hclose,
    List.nil_append, List.append_nil, count_commaSeparated hc]

theorem tokens_call_ne_nil {path : Tree} (h : path.tokens ≠ []) (arguments : Tree) :
    (call path arguments).tokens ≠ [] :=
  List.append_ne_nil_of_left_ne_nil h _

/-- A call starts with its path, so that it has no leading trivia. -/
theorem leading_call {path : Tree} (h : path.tokens ≠ []) (hnone : path.trivia = [])
    (arguments : Tree) : (call path arguments).leading = [] := by
  rw [call, leading_node_cons _ h]
  rw [trivia_eq] at hnone
  exact (List.append_eq_nil_iff.mp (List.append_eq_nil_iff.mp hnone).1).1

theorem trailing_call (path : Tree) {arguments : Tree} (h : arguments.tokens ≠ []) :
    (call path arguments).trailing = arguments.trailing :=
  trailing_node_concat .invocationExpression [path] h

theorem tokens_argumentList_ne_nil (ts : List Tree) : (argumentList ts).tokens ≠ [] :=
  List.cons_ne_nil _ _

theorem trailing_argumentList (ts : List Tree) : (argumentList ts).trailing = [] :=
  trailing_node_concat .argumentList _ (List.cons_ne_nil _ _)

end Build

end SharpLint
