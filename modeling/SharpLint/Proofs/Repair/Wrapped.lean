import SharpLint.Proofs.Change.Splice
import SharpLint.Proofs.Repair.Comments
import SharpLint.Proofs.Tree.Nested
import SharpLint.Proofs.Tree.Printed

/-!
# The text of a wrapped expression

The fix for an expression is a change of text. The call comes in the place of the text of the
expression, between its outer trivia; in a hole the format clause is cut out besides:

    (target.replaceWith r).fullChars =
      splice (wrappingChanges callee n) 0 root.fullChars                 (fullChars_replaceWith)
-/

namespace SharpLint

open SharpLint.Tree

theorem splice_nil (offset : Nat) (cs : List Char) : splice [] offset cs = cs :=
  splice_of_le cs nofun nofun

/-- A tree with a token in it prints something. -/
theorem Tree.Sound.fullChars_ne_nil {t : Tree} (h : t.Sound) (hword : t.HasWord) :
    t.fullChars ≠ [] := by
  intro hnil
  rw [fullChars_eq_text] at hnil
  have htext := (List.append_eq_nil_iff.mp (List.append_eq_nil_iff.mp hnil).1).2
  exact h.text_ne_empty hword (String.toList_inj.mp htext)

/-- The hole that the node is the expression of. -/
def Node.holeOf? (n : Node) : Option Node :=
  n.parent?.filter fun h => decide (h.hole?.bind HoleParts.expression = some n)

namespace Repair.FormatCall

variable {callee : String} {n : Node} {r : Tree}

/-- What wrapping changes in the text of a hole: the format clause goes, and the format becomes an
argument. -/
def holeChanges (callee : String) (e : Node) (parts : Node.HoleParts) : List TextChange :=
  let format := (parts.formatText.map Build.literalText).toList
  parts.format.toList.map (fun clause => ⟨clause.fullSpan, []⟩) ++
    [⟨e.span, (Build.callText callee (e.text :: format)).toList⟩]

/-- What wrapping an expression changes in the text. -/
def wrappingChanges (callee : String) (n : Node) : List TextChange :=
  match n.holeOf?.bind Node.hole? with
  | none => [⟨n.span, (Build.callText callee [n.text]).toList⟩]
  | some parts => holeChanges callee n parts

/-! ## Expressions -/

theorem fullText_bare (h : n.tree.tokens ≠ []) : (bare n).fullText = n.text := by
  have hchars : (bare n).fullChars = n.text.toList := by
    rw [bare, fullChars_withTrivia h]
    exact List.append_nil _
  rw [fullText, hchars, String.ofList_toList]

/-- The call stands between the outer trivia of the expression. -/
theorem fullChars_wrap (hn : n.tree.tokens ≠ []) {more : List Tree}
    (h : wrap? callee n more = some r) :
    r.fullChars = Trivia.chars n.tree.leading ++
      (Build.callText callee (n.text :: more.map fullText)).toList ++
        Trivia.chars n.tree.trailing := by
  obtain ⟨path, hpath, h⟩ := Option.bind_eq_some_iff.mp h
  obtain rfl := Option.some.inj h
  have hne := tokens_dotted_ne_nil hpath
  let arguments := Build.argumentList ((bare n :: more).map Build.argument)
  have hleading : (Build.call path arguments).leading = [] :=
    Build.leading_call hne (Build.trivia_dotted hpath) _
  have htrailing : (Build.call path arguments).trailing = [] := by
    rw [Build.trailing_call path (Build.tokens_argumentList_ne_nil _), Build.trailing_argumentList]
  rw [fullChars_withTriviaFrom (Build.tokens_call_ne_nil hne _), text_of_outer hleading htrailing,
    Build.fullChars_call hpath, List.map_cons, fullText_bare hn]

/-- Text in the place of that of a node leaves its outer trivia alone. -/
theorem splice_span {pre : List Char} (hoffset : n.offset = byteLength pre)
    (htext : n.tree.text ≠ "") (new post : List Char) :
    splice [⟨n.span, new⟩] 0 (pre ++ n.tree.fullChars ++ post) =
      pre ++ (Trivia.chars n.tree.leading ++ new ++ Trivia.chars n.tree.trailing) ++ post := by
  have hspan : n.span = Span.ofLength (byteLength (pre ++ Trivia.chars n.tree.leading))
      (byteLength n.tree.text.toList) := by
    rw [Node.span, spanAt_eq, hoffset, byteLength_append, Trivia.widths_eq_byteLength]
  have hold : n.tree.text.toList ≠ [] := fun h => htext (String.toList_inj.mp h)
  have hcut : splice [⟨n.span, new⟩] 0 (pre ++ Trivia.chars n.tree.leading ++ n.tree.text.toList ++
      (Trivia.chars n.tree.trailing ++ post)) =
        splice [] 0 (pre ++ Trivia.chars n.tree.leading ++ new ++
          (Trivia.chars n.tree.trailing ++ post)) :=
    splice_cons _ _ _ (by rw [hspan]; rfl) (by rw [hspan]; rfl) hold (List.forall_mem_nil _)
      (List.forall_mem_nil _)
  rw [splice_nil] at hcut
  rw [fullChars_eq_text n.tree]
  simpa only [List.append_assoc] using hcut

/-- An expression is wrapped by a change of its text. -/
theorem splice_wrap (hsound : n.tree.Sound) (hword : n.tree.HasWord) {more : List Tree}
    (h : wrap? callee n more = some r) {pre : List Char} (hoffset : n.offset = byteLength pre)
    (post : List Char) :
    splice [⟨n.span, (Build.callText callee (n.text :: more.map fullText)).toList⟩] 0
      (pre ++ n.tree.fullChars ++ post) = pre ++ r.fullChars ++ post := by
  rw [splice_span hoffset (hsound.text_ne_empty hword),
    fullChars_wrap (Node.tokens_ne_nil_of_hasWord hword) h]

/-- A node is cut out of the text, while something in front of it changes. -/
theorem splice_fullSpan {pre : List Char} (hoffset : n.offset = byteLength pre)
    (hne : n.tree.fullChars ≠ []) {c : TextChange} (hlt : c.span.start < c.span.stop)
    (hbefore : c.span.stop ≤ n.offset) (post : List Char) :
    splice [⟨n.fullSpan, []⟩, c] 0 (pre ++ n.tree.fullChars ++ post) =
      splice [c] 0 (pre ++ post) := by
  have hstop : n.fullSpan.stop = byteLength pre + byteLength n.tree.fullChars := by
    rw [Node.fullSpan, Span.ofLength, hoffset, width_eq_byteLength]
  have hcut : splice [⟨n.fullSpan, []⟩, c] 0 (pre ++ n.tree.fullChars ++ post) =
      splice [c] 0 (pre ++ [] ++ post) :=
    splice_cons _ _ _ hoffset hstop hne (List.forall_mem_singleton.mpr hlt)
      (List.forall_mem_singleton.mpr hbefore)
  rwa [List.append_nil] at hcut

/-! ## Choices -/

theorem holeOf?_eq_some_iff {root : Tree} (hn : n.Inside root) {h : Node} :
    n.holeOf? = some h ↔
      n ∈ h.childNodes ∧ h.Inside root ∧ h.hole?.bind Node.HoleParts.expression = some n := by
  rw [Node.holeOf?, Option.filter_eq_some_iff, decide_eq_true_eq]
  constructor
  · rintro ⟨hparent, hexpression⟩
    obtain ⟨hinside, hmem⟩ := hn.of_parent? hparent
    exact ⟨hmem, hinside, hexpression⟩
  · rintro ⟨hmem, -, hexpression⟩
    exact ⟨Node.parent?_of_mem_childNodes hmem, hexpression⟩

/-- The expression of a hole is its first child node. -/
theorem childNode?_of_hole {h e : Node} (he : h.hole?.bind Node.HoleParts.expression = some e) :
    h.kind = .interpolation ∧ h.childNode? 0 = some e := by
  obtain ⟨parts, hparts, he⟩ := Option.bind_eq_some_iff.mp he
  obtain ⟨hkind, hparts⟩ := Option.ite_none_right_eq_some.mp hparts
  obtain rfl := Option.some.inj hparts
  exact ⟨hkind, (Option.filter_eq_some_iff.mp he).1⟩

/-- An expression is chosen with the hole around it, or alone. -/
theorem chooseExpression_eq {root : Tree} (hn : n.Inside root) :
    chooseExpression n = match n.holeOf? with
      | some h => ⟨h, .hole, n⟩
      | none => ⟨n, .operand, n⟩ := by
  have hsame : n.parent?.filter (fun h =>
      (h.hole?.bind Node.HoleParts.expression).any (·.index == n.index)) = n.holeOf? := by
    unfold Node.holeOf?
    cases hparent : n.parent? with
    | none => rfl
    | some h =>
      obtain ⟨-, hmem⟩ := hn.of_parent? hparent
      rw [Option.filter_some, Option.filter_some]
      congr 1
      cases he : h.hole?.bind Node.HoleParts.expression with
      | none => rfl
      | some e =>
        -- two children of the hole with one number are the same
        have hfirst := List.mem_of_getElem? (childNode?_of_hole he).2
        have hiff : e.index = n.index ↔ e = n :=
          ⟨Node.eq_of_index hfirst hmem, fun h => h ▸ rfl⟩
        simp [hiff]
  rw [← hsame]
  rfl

/-! ## Holes -/

/-- A hole starts with its brace and its expression. -/
theorem children_hole {h e : Node} (hshaped : h.tree.Shaped)
    (he : h.hole?.bind Node.HoleParts.expression = some e) :
    ∃ brace rest, h.children = .token brace :: e.tree :: rest ∧ e.index = 1 ∧
      e.offset = h.offset + brace.fullWidth ∧ e.kind.isExpression = true := by
  obtain ⟨hkind, hfirst⟩ := childNode?_of_hole he
  obtain ⟨k, labels, hk, hlabels⟩ := Node.form hshaped hkind
  obtain ⟨brace, _, hchildren, hothers⟩ := exists_cons_of_labels_token hlabels
  obtain ⟨ds, rest, rfl, -⟩ := exists_cons_of_labels_node hothers
  rw [Node.childNode?, Node.childNodes, hchildren] at hfirst
  obtain rfl := Option.some.inj hfirst
  exact ⟨brace, rest, hchildren, rfl, rfl, hk⟩

/-- The format clause stands somewhere behind the expression. -/
theorem children_clause {h e clause : Node} {brace : Token} {rest : List Tree}
    (hchildren : h.children = .token brace :: e.tree :: rest)
    (hexpression : e.kind.isExpression = true)
    (hclause : h.childOfKind? .interpolationFormatClause = some clause) :
    ∃ mid right, rest = mid ++ clause.tree :: right ∧ clause.index = mid.length + 2 ∧
      clause.offset = h.offset + (brace.fullWidth + (e.tree.width + widthOf mid)) := by
  obtain ⟨hmem, hkind⟩ := Node.of_childOfKind? hclause
  obtain ⟨left, right, hsplit, hoffset, habove⟩ := Node.exists_split_childNodes hmem
  rw [hchildren] at hsplit
  -- neither the brace nor the expression is the clause
  match left with
  | [] => cases hsplit
  | [first] =>
    have htree : e.tree = clause.tree := (List.cons.inj (List.cons.inj hsplit).2).1
    have hsame : e.kind = clause.kind := (Tree.node.inj htree).1
    rw [hsame, hkind] at hexpression
    cases hexpression
  | first :: second :: mid =>
    obtain ⟨hfirst, hsplit⟩ := List.cons.inj hsplit
    obtain ⟨hsecond, rfl⟩ := List.cons.inj hsplit
    rw [← hfirst, ← hsecond] at hoffset
    refine ⟨mid, right, rfl, ?_, hoffset⟩
    rw [Node.index, habove]
    rfl

/-- The new hole has the call for its expression, and no format clause. -/
theorem exists_wrapped_of_hole {h e : Node} {parts : Node.HoleParts} (hparts : h.hole? = some parts)
    (he : parts.expression = some e) (hr : qualifiedHole? callee h = some r) :
    ∃ w, wrap? callee e (parts.formatText.map Build.stringLiteral).toList = some w ∧
      r = .node .interpolation ((parts.format.map fun clause =>
        (h.children.set e.index w).eraseIdx clause.index).getD (h.children.set e.index w)) := by
  obtain ⟨parts', hparts', hr⟩ := Option.bind_eq_some_iff.mp hr
  obtain rfl := Option.some.inj (hparts.symm.trans hparts')
  obtain ⟨e', he', hr⟩ := Option.bind_eq_some_iff.mp hr
  obtain rfl := Option.some.inj (he.symm.trans he')
  obtain ⟨w, hw, hr⟩ := Option.bind_eq_some_iff.mp hr
  exact ⟨w, hw, (Option.some.inj hr).symm⟩

theorem format_eq {h : Node} {parts : Node.HoleParts} (hparts : h.hole? = some parts) :
    parts.format = h.childOfKind? .interpolationFormatClause := by
  obtain ⟨-, hview⟩ := Option.ite_none_right_eq_some.mp hparts
  obtain rfl := Option.some.inj hview
  rfl

theorem fullText_stringLiterals (text : Option String) :
    (text.map Build.stringLiteral).toList.map fullText = (text.map Build.literalText).toList := by
  cases text with
  | none => rfl
  | some text => exact congrArg (fun s => [s]) (Build.fullText_stringLiteral text)

theorem fullChars_hole (k : NodeKind) (brace : Token) (c : Tree) (cs : List Tree) :
    (Tree.node k (.token brace :: c :: cs)).fullChars =
      brace.fullChars ++ c.fullChars ++ (tokensOf cs).flatMap Token.fullChars := by
  rw [fullChars_node_cons, fullChars_token, tokensOf, List.flatMap_append]
  simp only [List.append_assoc, fullChars]

/-- The format clause is cut out of the text of a hole. -/
theorem splice_clause {h e clause : Node} (hsound : h.tree.Sound) (hlaid : h.tree.Laid)
    {brace : Token} {mid right : List Tree}
    (hchildren : h.children = .token brace :: e.tree :: (mid ++ clause.tree :: right))
    (hkind : clause.kind = .interpolationFormatClause)
    (hclause : clause.offset = h.offset + (brace.fullWidth + (e.tree.width + widthOf mid)))
    (he : e.offset = h.offset + brace.fullWidth) (hlt : e.span.start < e.span.stop)
    {pre : List Char} (hoffset : h.offset = byteLength pre) (new post : List Char) :
    splice [⟨clause.fullSpan, []⟩, ⟨e.span, new⟩] 0 (pre ++ h.tree.fullChars ++ post) =
      splice [⟨e.span, new⟩] 0 (pre ++ brace.fullChars ++ e.tree.fullChars ++
        ((tokensOf (mid ++ right)).flatMap Token.fullChars ++ post)) := by
  have hmem : clause.tree ∈ h.children := by rw [hchildren]; simp
  have hword : clause.tree.HasWord := by
    refine Laid.hasWord _ (laidOf_iff.mp hlaid.2 _ hmem) ?_
    rw [Node.tree, hkind]
    rfl
  let before := pre ++ brace.fullChars ++ e.tree.fullChars ++ (tokensOf mid).flatMap Token.fullChars
  have hbefore : clause.offset = byteLength before := by
    simp only [before, hclause, hoffset, byteLength_append, Token.fullWidth_eq_byteLength,
      width_eq_byteLength, widthOf_eq_byteLength, Nat.add_assoc]
  have hstop : e.span.stop ≤ clause.offset := by
    have hcontains := (Span.contains_iff _ _).mp e.contains_span
    have hfull : e.fullSpan.stop = e.offset + e.tree.width := rfl
    omega
  have hold : pre ++ h.tree.fullChars ++ post = before ++ clause.tree.fullChars ++
      ((tokensOf right).flatMap Token.fullChars ++ post) := by
    rw [Node.tree, hchildren, fullChars_hole]
    simp only [before, tokensOf_append, tokensOf, fullChars, List.flatMap_append, List.append_assoc]
  have hcut := splice_fullSpan hbefore ((hsound.child hmem).fullChars_ne_nil hword)
    (c := ⟨e.span, new⟩) hlt hstop ((tokensOf right).flatMap Token.fullChars ++ post)
  rw [hold, hcut]
  simp only [before, tokensOf_append, List.flatMap_append, List.append_assoc]

/-- The new hole prints what is spliced into the old one. -/
theorem splice_hole {h e : Node} (hsound : h.tree.Sound) (hlaid : h.tree.Laid)
    {parts : Node.HoleParts} (hparts : h.hole? = some parts) (he : parts.expression = some e)
    (hr : qualifiedHole? callee h = some r) {pre : List Char} (hoffset : h.offset = byteLength pre)
    (post : List Char) :
    splice (holeChanges callee e parts) 0 (pre ++ h.tree.fullChars ++ post) =
      pre ++ r.fullChars ++ post := by
  have hexpression : h.hole?.bind Node.HoleParts.expression = some e := by
    rw [hparts]
    exact he
  obtain ⟨brace, rest, hchildren, hindex, hstart, hkind⟩ := children_hole hsound.shaped hexpression
  obtain ⟨w, hw, rfl⟩ := exists_wrapped_of_hole hparts he hr
  have hesound : e.tree.Sound := hsound.child (by rw [hchildren]; simp)
  have heword := hasWord_of_isExpression hesound hkind
  have hestart : e.offset = byteLength (pre ++ brace.fullChars) := by
    rw [hstart, hoffset, byteLength_append, Token.fullWidth_eq_byteLength]
  have hwrap := splice_wrap hesound heword hw hestart
  rw [fullText_stringLiterals] at hwrap
  rw [holeChanges, hindex, hchildren]
  cases hformat : parts.format with
  | none =>
    have hold : h.tree.fullChars = brace.fullChars ++ e.tree.fullChars ++
        (tokensOf rest).flatMap Token.fullChars := by
      rw [Node.tree, hchildren, fullChars_hole]
    have hdone := hwrap ((tokensOf rest).flatMap Token.fullChars ++ post)
    simp only [Option.toList_none, List.map_nil, List.nil_append, Option.map_none, Option.getD_none,
      List.set_cons_succ, List.set_cons_zero, fullChars_hole, hold]
    simpa only [List.append_assoc] using hdone
  | some clause =>
    have hfound := (format_eq hparts).symm.trans hformat
    obtain ⟨mid, right, rfl, hclause, hclauseStart⟩ := children_clause hchildren hkind hfound
    have hcut := splice_clause hsound hlaid hchildren (Node.of_childOfKind? hfound).2 hclauseStart
      hstart (Node.span_pos hesound heword) hoffset
      (Build.callText callee (e.text :: (parts.formatText.map Build.literalText).toList)).toList post
    simp only [Option.toList_some, List.map_cons, List.map_nil, List.cons_append, List.nil_append,
      Option.map_some, Option.getD_some, List.set_cons_succ, List.set_cons_zero, hclause,
      List.eraseIdx_cons_succ, List.eraseIdx_append_of_length_le (Nat.le_refl _), Nat.sub_self,
      List.eraseIdx_cons_zero, fullChars_hole]
    rw [hcut, hwrap]
    simp only [List.append_assoc]

/-! ## Documents -/

/-- With the choice for an expression replaced, a tree prints what is spliced into its text. -/
theorem fullChars_replaceWith {root : Tree} {b : Bindings} (hroot : root.Sound) (hlaid : root.Laid)
    (hn : n.Inside root) (hkind : n.kind.isExpression = true)
    (hsited : (chooseExpression n).Sited root b) {site : Site}
    (hshape : site.shape = (chooseExpression n).shape)
    (hr : site.replacement? (chooseExpression n).target = some r) :
    ((chooseExpression n).target.replaceWith r).fullChars =
      splice (wrappingChanges site.callee n) 0 root.fullChars := by
  obtain ⟨pre, post, hold, hnew, hoffset⟩ :=
    (Node.replaced_of_findNode? r hsited.found).exists_split
  rw [Node.fullChars_tree_root] at hold
  rw [Nat.zero_add] at hoffset
  rw [hnew, hold]
  rw [chooseExpression_eq hn] at hshape hr hoffset ⊢
  unfold Site.replacement? at hr
  rw [wrappingChanges]
  cases hhole : n.holeOf? with
  | none =>
    rw [hhole] at hshape hr hoffset
    rw [hshape] at hr
    have hsound := hn.sound hroot
    exact (splice_wrap hsound (hasWord_of_isExpression hsound hkind) hr hoffset post).symm
  | some h =>
    rw [hhole] at hshape hr hoffset
    rw [hshape] at hr
    obtain ⟨-, hinside, hexpression⟩ := (holeOf?_eq_some_iff hn).mp hhole
    obtain ⟨parts, hparts, he⟩ := Option.bind_eq_some_iff.mp hexpression
    rw [Option.bind_some, hparts]
    exact (splice_hole (hinside.sound hroot) (hinside.laid hlaid) hparts he hr hoffset post).symm

end Repair.FormatCall

end SharpLint
