import SharpLint.Proofs.Repair.Wrapped

/-!
# Calls with the receiver as first argument

What replaces `receiver.ToString(arguments)` is a call of the path, with the receiver and then the old
arguments in its list. Outer trivia are set at the first token of the path and at the parenthesis that
ends the list, so that the arguments stay as they are:

    (Build.call path (.node k (cs ++ [.token t]))).withTriviaFrom other =
      Build.call (path.withLeading other.leading)
        (.node k (cs ++ [.token { t with trailing := other.trailing }]))    (withTriviaFrom_call)
-/

namespace SharpLint

open SharpLint.Tree

namespace Tree

theorem mapLastOf_concat (f : Token → Token) (cs : List Tree) (t : Token) :
    mapLastOf f (cs ++ [.token t]) = cs ++ [.token (f t)] := by
  induction cs with
  | nil => rfl
  | cons c cs ih =>
    have hlast : (lastTokenOf? (cs ++ [.token t])).isSome = true := by
      rw [lastTokenOf?_eq_getLast?, tokensOf_append]
      simp [tokensOf, tokens]
    rw [List.cons_append, mapLastOf, if_pos hlast, ih, List.cons_append]

end Tree

namespace Build

theorem withTriviaFrom_call {path : Tree} (h : path.tokens ≠ []) (k : NodeKind) (cs : List Tree)
    (t : Token) (other : Tree) :
    (call path (.node k (cs ++ [.token t]))).withTriviaFrom other =
      call (path.withLeading other.leading)
        (.node k (cs ++ [.token { t with trailing := other.trailing }])) := by
  have hfirst : path.hasToken = true := hasToken_iff.mpr h
  have hlast : (lastTokenOf? [.node k (cs ++ [.token t])]).isSome = true := by
    rw [lastTokenOf?_eq_getLast?]
    simp [tokensOf, tokens]
  have hleading : (call path (.node k (cs ++ [.token t]))).withLeading other.leading =
      call (path.withLeading other.leading) (.node k (cs ++ [.token t])) := by
    rw [call, withLeading, mapFirst, mapFirstOf, if_pos hfirst]
    rfl
  rw [withTriviaFrom, hleading, call, withTrailing, mapLast, mapLastOf, if_pos hlast, mapLastOf]
  show call _ (.node k (mapLastOf _ (cs ++ [.token t]))) = _
  rw [mapLastOf_concat]

/-- A path that is written out prints its segments, whatever stands in front of it. -/
theorem text_dotted {path : String} {t : Tree} (h : dotted? path = some t) (leading : List Trivia) :
    (t.withLeading leading).text = joinWith "." (segments path) := by
  have htokens : t.tokens ≠ [] :=
    Node.tokens_ne_nil_of_hasWord ((sound_dotted h).sound.hasWord (sound_dotted h).isSolid)
  have htrivia := trivia_dotted h
  rw [text_withLeading htokens]
  refine String.toList_inj.mp ?_
  rw [text_of_outer (leading_of_trivia htrivia) (trailing_of_trivia htrivia), fullChars_dotted h]

end Build

namespace Repair.FormatCall

/-- The arguments among the parts of a list. -/
def argumentsAmong (cs : List Tree) : List Tree := cs.filter (·.kind? == some .argument)

theorem segments_calleeFor (module : String) (kind : FloatKind) :
    Build.segments (calleeFor module kind) = Build.segments module ++ [kind.name, "ToString"] := by
  have hkind : splitAtEach '.' kind.name.toList = [kind.name.toList] ∧ kind.name ≠ "" := by
    cases kind
    all_goals exact ⟨by decide, by decide⟩
  rw [calleeFor_eq, Build.segments_append_dot _ "ToString" (by decide) (by decide),
    Build.segments_append_dot module kind.name hkind.1 hkind.2, List.append_assoc]
  rfl

theorem argumentsAmong_between (opening closing : Token) (cs : List Tree) :
    argumentsAmong (.token opening :: (cs ++ [.token closing])) = argumentsAmong cs := by
  rw [argumentsAmong, List.filter_cons_of_neg Bool.false_ne_true, List.filter_append]
  exact List.append_nil _

theorem argumentsAmong_commaFor (opening : Token) (rest cs : List Tree) :
    argumentsAmong (commaFor opening rest ++ cs) = argumentsAmong cs := by
  rw [argumentsAmong, List.filter_append, commaFor]
  split
  · rfl
  · rfl

variable {callee : String} {n : Node} {r : Tree}

theorem CallOf.childNode?_zero {member receiver list : Node} (h : CallOf n member receiver list) :
    n.childNode? 0 = some member := by
  obtain ⟨-, hcall⟩ := Option.ite_none_right_eq_some.mp h.call
  exact (Node.CallParts.mk.inj (Option.some.inj hcall)).1

/-- The call that replaces a call: its callee is the path, its arguments are the receiver and the old
ones, with a comma between each two, and its outer trivia are those of the old call. -/
theorem exists_called (hn : n.tree.Sound) (h : qualifiedCall? callee n = some r) :
    ∃ member receiver list path arguments, CallOf n member receiver list ∧
      r = Build.call path (.node .argumentList arguments) ∧
      path.text = joinWith "." (Build.segments callee) ∧
      argumentsAmong arguments = Build.argument (bare receiver) :: argumentsAmong list.children ∧
      (bare receiver).fullText = receiver.text ∧
      IsArgumentList (arguments.map Tree.label) ∧
      r.leading = n.tree.leading ∧ r.trailing = n.tree.trailing := by
  obtain ⟨member, receiver, list, path, hparts, hpath, rfl⟩ := exists_callOf_of_qualifiedCall hn h
  have hpathTokens := tokens_dotted_ne_nil hpath
  obtain ⟨hreceiver, hlistSound⟩ := hparts.sound hn
  -- the parenthesis at the end of the list is the one that gets other trivia
  obtain ⟨opening, mid, closing, count, hlist, hlabels⟩ :=
    Node.children_argumentList hlistSound.shaped hparts.kind
  let front := Build.token .openParen :: Build.argument (bare receiver) ::
    (commaFor opening (mid ++ [.token closing]) ++ mid)
  have hprepend : prependArgument list (Build.argument (bare receiver)) =
      .node .argumentList (front ++ [.token closing]) := by
    rw [prependArgument_eq hlist]
    simp only [front, List.cons_append, List.append_assoc]
  have houter := outer_withTriviaFrom
    (Build.tokens_call_ne_nil hpathTokens (.node .argumentList (front ++ [.token closing]))) n.tree
  have hmade := Build.withTriviaFrom_call hpathTokens .argumentList front closing n.tree
  rw [hmade] at houter
  rw [hprepend, hmade]
  refine ⟨member, receiver, list, _, _, hparts, rfl, Build.text_dotted hpath _, ?_, ?_, ?_, houter⟩
  · rw [hlist, argumentsAmong_between]
    refine (argumentsAmong_between _ _ (Build.argument _ :: (commaFor opening _ ++ mid))).trans ?_
    rw [argumentsAmong, List.filter_cons_of_pos (by rfl)]
    exact congrArg (List.cons _) (argumentsAmong_commaFor opening _ mid)
  · exact fullText_bare (Node.tokens_ne_nil_of_hasWord
      (hasWord_of_isExpression hreceiver hparts.expression))
  · refine ⟨count + 1, ?_⟩
    rw [← labels_commaFor hlabels]
    simp only [front, List.map_append, List.map_cons, List.append_assoc, List.cons_append]
    rfl

end Repair.FormatCall

end SharpLint
