import SharpLint.Proofs.Repair.Called
import SharpLint.Proofs.Repair.Reread
import SharpLint.Proofs.Repair.Restated

/-!
# Room for a fix

Whether a fix leaves a text that can be read depends on what stands around the node that it replaces.
`hasRoom` looks for this in the tree, before the fix is made:

    a call of a member      the receiver is a path, and the token in front opens an operand
    an operand              it is a path, the token in front opens an operand, and the one behind
                            does not let it be a type, an initializer or an accessor
    a declaration           one word for accessibility, which comes first

A fix for a node with room exchanges tokens in one of the ways that keep a text readable.
-/

namespace SharpLint

open SharpLint.Tree

/-! ## Tokens of new trees -/

namespace Token

theorem dotted_eq (first : String) (others : List String) : dotted first others =
    bare .identifier first :: others.flatMap fun part => [ofKind .dot, bare .identifier part] := by
  induction others generalizing first with
  | nil => rfl
  | cons second others ih =>
    rw [dotted, ih]
    rfl

theorem withOuter_append {xs ys : List Token} (hxs : xs ≠ []) (hys : ys ≠ [])
    (leading trailing : List Trivia) : withOuter leading trailing (xs ++ ys) =
      (xs.modifyHead fun t => { t with leading := leading }) ++
        ys.modifyLast fun t => { t with trailing := trailing } := by
  obtain ⟨x, xs, rfl⟩ := List.exists_cons_of_ne_nil hxs
  rw [withOuter, List.cons_append, List.modifyHead_cons, List.modifyHead_cons, ← List.cons_append,
    List.modifyLast_append_of_right_ne_nil _ _ _ hys]

end Token

namespace Build

open Token

theorem tokens_dotted {path : String} {t : Tree} (h : dotted? path = some t) : ∃ first others,
    segments path = first :: others ∧ t.tokens = Token.dotted first others := by
  unfold dotted? at h
  split at h
  · cases h
  rename_i first others hsegments
  obtain rfl := Option.some.inj h
  have hchain (receiver : Tree) : (others.foldl memberAccess receiver).tokens = receiver.tokens ++
      others.flatMap fun part => [ofKind .dot, bare .identifier part] := by
    clear h hsegments
    induction others generalizing receiver with
    | nil => exact (List.append_nil _).symm
    | cons part others ih =>
      rw [List.foldl_cons, ih]
      simp [memberAccess, identifierName, token, tokens, tokensOf]
  refine ⟨first, others, hsegments, ?_⟩
  rw [hchain, dotted_eq]
  rfl

end Build

namespace Repair

open Token FormatCall

variable {n : Node} {r path : Tree} {callee : String}

theorem tokens_bare (n : Node) : (bare n).tokens = withOuter [] [] n.tree.tokens :=
  tokens_withTrivia n.tree [] []

theorem outerLeading_eq (t : Tree) : outerLeading t.tokens = t.leading := (leading_eq t).symm

theorem outerTrailing_eq (t : Tree) : outerTrailing t.tokens = t.trailing := (trailing_eq t).symm

/-- The tokens of an operand that is put into a call. -/
theorem tokens_wrap (h : wrap? callee n [] = some r) : ∃ first others,
    Build.segments callee = first :: others ∧ r.tokens = call first others n.tree.tokens ++
      [{ ofKind .closeParen with trailing := outerTrailing n.tree.tokens }] := by
  obtain ⟨path, hpath, h⟩ := Option.bind_eq_some_iff.mp h
  obtain rfl := Option.some.inj h
  obtain ⟨first, others, hsegments, htokens⟩ := Build.tokens_dotted hpath
  refine ⟨first, others, hsegments, ?_⟩
  have hcall : (Build.call path (Build.argumentList ([bare n].map Build.argument))).tokens =
      Token.dotted first others ++
        ((ofKind .openParen :: withOuter [] [] n.tree.tokens) ++ [ofKind .closeParen]) := by
    simp [Build.call, Build.argumentList, Build.commaSeparated, Build.argument, Build.token, tokens,
      tokensOf, htokens, tokens_bare]
  have hdotted : Token.dotted first others ≠ [] := by
    rw [dotted_eq]
    exact List.cons_ne_nil _ _
  rw [withTriviaFrom, tokens_withTrivia, hcall, withOuter_append hdotted (by simp), call,
    List.modifyLast_concat, outerLeading_eq, outerTrailing_eq]
  simp

/-- The parts of an argument list. -/
theorem exists_argumentList {list : Node} (h : list.tree.Shaped) (hkind : list.kind = .argumentList) :
    ∃ opening arguments closing, list.children = .token opening :: (arguments ++ [.token closing]) ∧
      opening.kind = .openParen ∧ closing.kind = .closeParen ∧
      ((arguments ++ [.token closing]).any (·.kind? == some .argument) = false → arguments = []) := by
  obtain ⟨opening, arguments, closing, count, hchildren, hlabels⟩ :=
    Node.children_argumentList h hkind
  obtain ⟨total, htotal⟩ := Node.form h hkind
  rw [hchildren] at htotal
  refine ⟨opening, arguments, closing, hchildren, Label.token.inj (List.cons.inj htotal).1, ?_, ?_⟩
  · rw [List.map_append, List.map_singleton, List.append_singleton_inj] at hlabels
    exact Label.token.inj hlabels.2
  · intro hnone
    have hany := any_kind_iff_label .argument (arguments ++ [.token closing])
    rw [hnone, hlabels] at hany
    cases count with
    | zero =>
      rw [List.map_append, List.map_singleton, List.append_singleton_inj] at hlabels
      exact List.map_eq_nil_iff.mp hlabels.1
    | succ count =>
      rw [argumentLabels_succ] at hany
      exact absurd (hany.mpr List.mem_cons_self) Bool.false_ne_true

/-- The tokens of a call of a member that is put into another call. -/
theorem tokens_qualifiedCall (hn : n.tree.Sound) (h : qualifiedCall? callee n = some r) :
    ∃ first others k receiver member opening arguments closing,
      Build.segments callee = first :: others ∧
      n.children = [.node k (receiver :: member),
        .node .argumentList (.token opening :: (arguments ++ [.token closing]))] ∧
      opening.kind = .openParen ∧ closing.kind = .closeParen ∧
      ((arguments ++ [.token closing]).any (·.kind? == some .argument) = false → arguments = []) ∧
      r.tokens = call first others receiver.tokens ++ (tokensOf (commaFor opening
        (arguments ++ [.token closing])) ++ (tokensOf arguments ++ [closing])) := by
  obtain ⟨member, receiver, list, path, hparts, hpath, rfl⟩ := exists_callOf_of_qualifiedCall hn h
  obtain ⟨first, others, hsegments, htokens⟩ := Build.tokens_dotted hpath
  obtain ⟨hreceiver, hlist⟩ := hparts.sound hn
  obtain ⟨opening, arguments, closing, hchildren, hopening, hclosing, hnone⟩ :=
    exists_argumentList hlist.shaped hparts.kind
  obtain ⟨more, hmore⟩ := hparts.memberChildren
  have htree : list.tree = .node .argumentList (.token opening :: (arguments ++ [.token closing])) := by
    rw [Node.tree, hparts.kind, hchildren]
  have hn : n.children = [.node member.kind (receiver.tree :: more),
      .node .argumentList (.token opening :: (arguments ++ [.token closing]))] := by
    rw [hparts.children, htree, Node.tree, hmore]
  refine ⟨first, others, member.kind, receiver.tree, more, opening, arguments, closing, hsegments, hn,
    hopening, hclosing, hnone, ?_⟩
  have hreceiver : receiver.tree.tokens ≠ [] :=
    Node.tokens_ne_nil_of_hasWord (hasWord_of_isExpression hreceiver hparts.expression)
  have hcall : (Build.call path (prependArgument list (Build.argument (bare receiver)))).tokens =
      Token.dotted first others ++ ((ofKind .openParen :: withOuter [] [] receiver.tree.tokens ++
        tokensOf (commaFor opening (arguments ++ [.token closing])) ++ tokensOf arguments) ++
          [closing]) := by
    rw [prependArgument_eq hchildren]
    simp [Build.call, Build.argument, Build.token, tokens, tokensOf, htokens, tokens_bare]
  have hleading : n.tree.leading = outerLeading receiver.tree.tokens := by
    obtain ⟨t, ts, ht⟩ := List.exists_cons_of_ne_nil hreceiver
    rw [← outerLeading_eq, Node.tree, hn]
    simp [tokens, tokensOf, ht, outerLeading]
  have htrailing : n.tree.trailing = closing.trailing := by
    have hlast : (opening :: (tokensOf arguments ++ [closing])).getLast? = some closing := by
      rw [← List.cons_append, List.getLast?_concat]
    rw [← outerTrailing_eq, Node.tree, hn]
    simp [tokens, tokensOf, outerTrailing, hlast]
  have hdotted : Token.dotted first others ≠ [] := by
    rw [dotted_eq]
    exact List.cons_ne_nil _ _
  rw [withTriviaFrom, tokens_withTrivia, hcall, withOuter_append hdotted (by simp), call,
    List.modifyLast_concat, hleading, htrailing]
  simp

/-! ## Room -/

/-- The tokens in front of an offset, and the others. -/
def tokensUpTo : Nat → List Token → List Token × List Token
  | _, [] => ([], [])
  | offset, t :: ts =>
    if t.fullWidth ≤ offset then
      ((t :: (tokensUpTo (offset - t.fullWidth) ts).1), (tokensUpTo (offset - t.fullWidth) ts).2)
    else ([], t :: ts)

theorem tokensUpTo_append {front us : List Token} (hne : us ≠ []) (hus : StartsWithText us) :
    tokensUpTo (fullWidths front) (front ++ us) = (front, us) := by
  induction front with
  | nil =>
    obtain ⟨t, ts, rfl⟩ := List.exists_cons_of_ne_nil hne
    have hbytes : t.text.utf8ByteSize ≠ 0 := fun h => hus t rfl (String.utf8ByteSize_eq_zero_iff.mp h)
    have hlt : ¬ t.fullWidth ≤ 0 := by
      rw [Token.fullWidth]
      omega
    rw [List.nil_append, fullWidths, tokensUpTo, if_neg hlt]
  | cons t front ih =>
    rw [List.cons_append, fullWidths, tokensUpTo, if_pos (Nat.le_add_right _ _),
      Nat.add_sub_cancel_left, ih]

/-- What follows the parenthesis of a call: an argument, or trivia that stay on the line. -/
def opensArguments (opening : Token) (rest : List Tree) : Bool :=
  if rest.any (·.kind? == some .argument) then nextKind (tokensOf rest) != .closeParen
  else opening.trailing.getLast?.map Trivia.kind != some .endOfLine

/-- Room for a call of a member. -/
def callHasRoom (front : List Token) (n : Node) : Bool :=
  match n.children with
  | [.node _ (receiver :: member), .node _ (.token opening :: rest)] =>
    isPath (receiver.tokens.map Token.kind) && opensOperand front receiver.tokens &&
      (tokensOf member).map Token.kind == [.dot, .identifier] && opensArguments opening rest
  | _ => false

/-- Room for an operand. -/
def operandHasRoom (front behind : List Token) (n : Node) : Bool :=
  n.kind.isExpression && isPath (n.tree.tokens.map Token.kind) && opensOperand front n.tree.tokens &&
    closesOperand front behind

/-- The first modifier, and no other one, is for accessibility. -/
def startsWithAccess (n : Node) : Bool :=
  match Visibility.modifiersOf n with
  | [] => false
  | first :: others =>
    Visibility.isAccessibility first && others.all (!Visibility.isAccessibility ·)

/-- There is room in the tree for the edit of a fix for the code. -/
def hasRoom (code : String) (root : Tree) (e : Edit) : Bool :=
  ((Node.root root).findNode? e.target e.kind).any fun n =>
    let around := tokensUpTo n.offset root.tokens
    if code = Rule.SupportNamespace.descriptor.code then startsWithAccess n
    else if code = Rule.Formatting.explicitDescriptor.code then callHasRoom around.1 n
    else operandHasRoom around.1 (around.2.drop n.tree.tokens.length) n

/-! ## Fixes with room -/

/-- The edit puts an expression into a call of a method of the module. -/
def MakesCall (module code : String) (root : Tree) (e : Edit) : Prop :=
  ∃ n, (Node.root root).findNode? e.target e.kind = some n ∧
    ∃ site : FormatCall.Site, ∃ kind : FloatKind, site.replacement? n = some e.replacement ∧ site.callee = calleeFor module kind ∧
    (site.shape = .call ↔ code = Rule.Formatting.explicitDescriptor.code)

/-- The edit is one of a fix for the code. -/
def RepairsFor (module code : String) (root : Tree) (e : Edit) : Prop :=
  if code = Rule.SupportNamespace.descriptor.code then Visibility.MakesInternal root e
  else MakesCall module code root e

variable {module code : String} {root : Tree} {e : Edit}

theorem exchanges_accesses (hroot : root.Sound) (hmakes : Visibility.MakesInternal root e)
    (hroom : hasRoom Rule.SupportNamespace.descriptor.code root e = true) :
    e.Exchanges Accesses root := by
  obtain ⟨n, hn, hkind, hnew⟩ := hmakes
  rw [hasRoom, hn] at hroom
  have hstarts : startsWithAccess n = true := hroom
  have hinside : n.Inside root := Node.Inside.of_findNode? hn
  obtain ⟨p, hp⟩ := Visibility.exists_parts (hinside.shaped hroot.shaped) hkind
  rw [startsWithAccess, Visibility.modifiersOf_eq hp] at hstarts
  refine ⟨n, hn, fun front behind _ _ => ?_⟩
  cases hmodifiers : p.modifiers with
  | nil =>
    rw [hmodifiers] at hstarts
    cases hstarts
  | cons first others =>
    rw [hmodifiers] at hstarts
    obtain ⟨hfirst, hothers⟩ := Bool.and_eq_true_iff.mp hstarts
    have hlist := Visibility.internalFirst_of_first hfirst
      fun m hm => by simpa using List.all_eq_true.mp hothers m hm
    refine ⟨tokensOf p.attributes, first, others ++ p.word :: tokensOf p.rest, ?_, ?_, hfirst⟩
    · rw [Node.tree, hp]
      simp [tokens, tokensOf, Visibility.DeclarationParts.children, Build.modifierList, hmodifiers,
        Visibility.tokensOf_map_token]
    · rw [Visibility.withInternal?, hp, p.internalChildren?_children] at hnew
      obtain ⟨attributes, _, word, rest, hattributes⟩ := p
      obtain rfl := hmodifiers
      rw [← Option.some.inj hnew]
      simp only [Visibility.DeclarationParts.internal, Visibility.DeclarationParts.first,
        List.headD_cons, hlist]
      simp [tokens, tokensOf, Visibility.DeclarationParts.children, Build.modifierList,
        Visibility.tokensOf_map_token, asInternal]

/-- The names of a callee, where those of the module are names. -/
theorem isIdentifier_segments (hmodule : ∀ s ∈ Build.segments module, isIdentifier s = true)
    (kind : FloatKind) : ∀ s ∈ Build.segments (calleeFor module kind), isIdentifier s = true := by
  rw [segments_calleeFor, List.forall_mem_append, List.forall_mem_cons, List.forall_mem_singleton]
  refine ⟨hmodule, ?_, by decide⟩
  cases kind <;> decide

theorem text_ne_empty_of_isReadable {ts : List Token} (h : IsReadable ts) :
    ∀ t ∈ ts, t.kind ≠ .endOfFile → t.text ≠ "" := by
  obtain ⟨body, ws, rfl, hread⟩ := h
  intro t ht hkind
  rcases List.mem_append.mp ht with ht | ht
  · obtain ⟨front, tail, rfl⟩ := List.append_of_mem ht
    exact hread.cut.text_ne_empty
  · rw [List.mem_singleton.mp ht] at hkind
    exact absurd rfl hkind

/-- The tokens around a node that starts with a path. -/
theorem tokensUpTo_path {ts path more front behind : List Token} (hread : IsReadable ts)
    (hpath : isPath (path.map Token.kind) = true) (hsplit : ts = front ++ (path ++ more) ++ behind) :
    tokensUpTo (fullWidths front) ts = (front, path ++ more ++ behind) := by
  rw [hsplit] at hread ⊢
  rw [List.append_assoc]
  obtain ⟨t, us, rfl⟩ := List.exists_cons_of_ne_nil (ne_nil_of_isPath hpath)
  have hfirst : t.kind.startsPath = true := (Bool.and_eq_true_iff.mp hpath).1
  refine tokensUpTo_append (List.cons_ne_nil _ _) ?_
  rintro u ⟨rfl⟩
  exact text_ne_empty_of_isReadable hread t (by simp) (opens_of_startsPath hfirst).1

theorem formats_call {front behind : List Token} (hn : n.tree.Sound)
    (hread : IsReadable root.tokens) (hsplit : root.tokens = front ++ n.tree.tokens ++ behind)
    (hoffset : n.offset = fullWidths front)
    (hnames : ∀ s ∈ Build.segments callee, isIdentifier s = true)
    (hnew : qualifiedCall? callee n = some r)
    (hroom : callHasRoom (tokensUpTo n.offset root.tokens).1 n = true) :
    Formats front behind n.tree.tokens r.tokens := by
  obtain ⟨first, others, k, receiver, member, opening, arguments, closing, hsegments, hchildren,
    hopening, hclosing, hnone, htokens⟩ := tokens_qualifiedCall hn hnew
  rw [hsegments] at hnames
  simp only [callHasRoom, hchildren, Bool.and_eq_true, beq_iff_eq] at hroom
  obtain ⟨⟨⟨hpath, hopens⟩, hmember⟩, harguments⟩ := hroom
  obtain ⟨sign, name, hsign, hname, htwo⟩ : ∃ sign name : Token, sign.kind = .dot ∧
      name.kind = .identifier ∧ tokensOf member = [sign, name] := by
    obtain ⟨sign, us, hus, hsign, hname⟩ := List.map_eq_cons_iff.mp hmember
    obtain ⟨name, vs, rfl, hname, hnil⟩ := List.map_eq_cons_iff.mp hname
    rw [List.map_eq_nil_iff.mp hnil] at hus
    exact ⟨sign, name, hsign, hname, hus⟩
  have hold : n.tree.tokens =
      receiver.tokens ++ sign :: name :: opening :: (tokensOf arguments ++ [closing]) := by
    rw [Node.tree, hchildren]
    simp [tokens, tokensOf, htwo]
  have haround := tokensUpTo_path hread hpath (hold ▸ hsplit)
  rw [← hoffset] at haround
  rw [haround] at hopens
  rw [hold, htokens]
  unfold opensArguments at harguments
  unfold commaFor
  split at harguments
  · rename_i hany
    have hnext : nextKind (tokensOf arguments ++ [closing]) ≠ .closeParen := by
      simpa [tokensOf, tokens] using harguments
    rw [if_pos hany]
    exact .callMore hpath hopens hnames hsign hname hopening hclosing hnext
  · rename_i hany
    obtain rfl := hnone (Bool.not_eq_true _ ▸ hany)
    have hline : ¬ Lexeme.ClosesLine opening.trailing := by
      simpa [Lexeme.ClosesLine] using harguments
    rw [if_neg hany]
    exact .call hpath hopens hnames hsign hname hopening hclosing hline

theorem formats_operand {front behind : List Token} (hread : IsReadable root.tokens)
    (hsplit : root.tokens = front ++ n.tree.tokens ++ behind) (hoffset : n.offset = fullWidths front)
    (hnames : ∀ s ∈ Build.segments callee, isIdentifier s = true) (hnew : wrap? callee n [] = some r)
    (hroom : operandHasRoom (tokensUpTo n.offset root.tokens).1
      ((tokensUpTo n.offset root.tokens).2.drop n.tree.tokens.length) n = true) :
    Formats front behind n.tree.tokens r.tokens := by
  obtain ⟨first, others, hsegments, htokens⟩ := tokens_wrap hnew
  rw [hsegments] at hnames
  simp only [operandHasRoom, Bool.and_eq_true] at hroom
  obtain ⟨⟨⟨-, hpath⟩, hopens⟩, hcloses⟩ := hroom
  have hpathFirst : root.tokens = front ++ (n.tree.tokens ++ []) ++ behind := by simpa using hsplit
  have haround := tokensUpTo_path hread hpath hpathFirst
  rw [← hoffset] at haround
  rw [haround, List.append_nil, List.drop_left] at hcloses
  rw [haround] at hopens
  rw [htokens]
  exact .operand hpath hopens hcloses hnames

theorem exchanges_formats (hroot : root.Sound) (hread : IsReadable root.tokens)
    (hmodule : ∀ s ∈ Build.segments module, isIdentifier s = true)
    (hother : code ≠ Rule.SupportNamespace.descriptor.code) (hmakes : MakesCall module code root e)
    (hroom : hasRoom code root e = true) : e.Exchanges Formats root := by
  obtain ⟨n, hn, site, kind, hnew, hcallee, hshape⟩ := hmakes
  have hsound : n.tree.Sound := (Node.Inside.of_findNode? hn).sound hroot
  have hnames := isIdentifier_segments hmodule kind
  rw [← hcallee] at hnames
  refine ⟨n, hn, fun front behind hsplit hoffset => ?_⟩
  rw [hasRoom, hn, Option.any_some, if_neg hother] at hroom
  split at hroom
  · rename_i hexplicit
    rw [FormatCall.Site.replacement?, hshape.mpr hexplicit] at hnew
    exact formats_call hsound hread hsplit hoffset hnames hnew hroom
  · rename_i hexplicit
    rw [FormatCall.Site.replacement?] at hnew
    cases hform : site.shape with
    | call => exact absurd (hshape.mp hform) hexplicit
    | operand =>
      rw [hform] at hnew
      exact formats_operand hread hsplit hoffset hnames hnew hroom
    | hole =>
      -- a hole is no expression
      rw [hform] at hnew
      obtain ⟨parts, hparts, -⟩ := Option.bind_eq_some_iff.mp hnew
      obtain ⟨hkind, -⟩ := Option.ite_none_right_eq_some.mp hparts
      rw [operandHasRoom, hkind] at hroom
      cases hroom

/-- Fixes with room keep the tokens of a tree readable. -/
theorem readable_of_hasRoom (document : DocumentId) {located : List Located} {new : Tree}
    (hmodule : ∀ s ∈ Build.segments module, isIdentifier s = true) (hfits : FitsFromRight root located)
    (hrepairs : ∀ l ∈ located, RepairsFor module code root l.edit)
    (hroom : ∀ l ∈ located, hasRoom code root l.edit = true) (hread : IsReadable root.tokens)
    (hok : replaceTargets document root (located.map Located.edit) = .ok new) :
    IsReadable new.tokens := by
  by_cases hsupport : code = Rule.SupportNamespace.descriptor.code
  · refine readable_replaceTargets document keeps_accesses hfits (fun l hl => ?_) hread hok
    have hmakes := hrepairs l hl
    rw [RepairsFor, if_pos hsupport] at hmakes
    exact exchanges_accesses hfits.sound hmakes (hsupport ▸ hroom l hl)
  · refine readable_replaceTargets document keeps_formats hfits (fun l hl => ?_) hread hok
    have hmakes := hrepairs l hl
    rw [RepairsFor, if_neg hsupport] at hmakes
    exact exchanges_formats hfits.sound hread hmodule hsupport hmakes (hroom l hl)

end Repair

end SharpLint
