import SharpLint.Proofs.Change.Exchange
import SharpLint.Proofs.Repair.Comments
import SharpLint.Proofs.Repair.Modifiers

/-!
# Names that a replacement adds

A formatting call keeps the names of what it replaces, and has the path of its method besides. A call
loses the member name `ToString`, but the path ends with that name and has another one in front of it.
A declaration made internal has the names that it had:

    nameBytes n.tree.tokens < nameBytes r.tokens       r formats n        (nameBytes_replacement)
    nameBytes n.tree.tokens = nameBytes r.tokens       r makes n internal (nameBytes_withInternal)

What all edits of a batch add is added to the tree (`nameBytes_replaceTargets`), so that the number of
bytes in names tells whether anything was formatted.
-/

namespace SharpLint

open SharpLint.Tree

/-! ## Names among tokens -/

/-- Number of bytes of the names among tokens. -/
def nameBytes : List Token → Nat
  | [] => 0
  | t :: ts => (if t.kind = .identifier then t.text.utf8ByteSize else 0) + nameBytes ts

/-- What a token is, trivia aside. -/
def Token.word (t : Token) : TokenKind × String := (t.kind, t.text)

variable {ts us : List Token}

@[simp] theorem nameBytes_nil : nameBytes [] = 0 := rfl

@[simp] theorem nameBytes_append (ts us : List Token) :
    nameBytes (ts ++ us) = nameBytes ts + nameBytes us := by
  induction ts with
  | nil => simp
  | cons t ts ih =>
    rw [List.cons_append, nameBytes, nameBytes, ih]
    omega

theorem nameBytes_cons_of_ne {t : Token} (h : t.kind ≠ .identifier) :
    nameBytes (t :: ts) = nameBytes ts := by
  rw [nameBytes, if_neg h, Nat.zero_add]

theorem nameBytes_eq_zero (h : ∀ t ∈ ts, t.kind ≠ .identifier) : nameBytes ts = 0 := by
  induction ts with
  | nil => rfl
  | cons t ts ih =>
    rw [List.forall_mem_cons] at h
    rw [nameBytes_cons_of_ne h.1, ih h.2]

theorem nameBytes_le (ts : List Token) : nameBytes ts ≤ textWidths ts := by
  induction ts with
  | nil => exact Nat.le_refl 0
  | cons t ts ih =>
    rw [nameBytes, textWidths]
    split
    · omega
    · omega

theorem nameBytes_eq_of_words (h : ts.map Token.word = us.map Token.word) :
    nameBytes ts = nameBytes us := by
  induction ts generalizing us with
  | nil => rw [List.map_eq_nil_iff.mp h.symm]
  | cons t ts ih =>
    obtain ⟨u, us, rfl, hword, hwords⟩ := List.map_eq_cons_iff.mp h.symm
    obtain ⟨hkind, htext⟩ := Prod.mk.inj hword
    rw [nameBytes, nameBytes, hkind, htext, ih hwords.symm]

namespace Tree

/-- Other outer trivia leave the words as they are. -/
theorem words_withOuter (leading trailing : List Trivia) (ts : List Token) :
    (withOuter leading trailing ts).map Token.word = ts.map Token.word := by
  cases ts with
  | nil => rfl
  | cons a us =>
    obtain rfl | ⟨mid, b, rfl⟩ := List.eq_nil_or_concat' us
    · rw [withOuter_singleton]
      rfl
    · rw [withOuter_cons_concat]
      simp [Token.word]

theorem nameBytes_withTrivia (t : Tree) (leading trailing : List Trivia) :
    nameBytes ((t.withLeading leading).withTrailing trailing).tokens = nameBytes t.tokens := by
  rw [tokens_withTrivia]
  exact nameBytes_eq_of_words (words_withOuter leading trailing t.tokens)

theorem nameBytes_withTriviaFrom (t other : Tree) :
    nameBytes (t.withTriviaFrom other).tokens = nameBytes t.tokens :=
  nameBytes_withTrivia t _ _

/-- The names in a tree are part of its text. -/
theorem nameBytes_le_text (t : Tree) : nameBytes t.tokens ≤ byteLength t.text.toList := by
  have hle := nameBytes_le t.tokens
  have htext := textWidths_add_le t.tokens
  have hwidth := t.width_eq_text
  have hstart : Trivia.widths t.leading = leadingWidth t.tokens := by
    rw [leading_eq, leadingWidth]
    cases t.tokens.head? with
    | none => rfl
    | some u => rfl
  have hstop : Trivia.widths t.trailing = trailingWidth t.tokens := by
    rw [trailing_eq, trailingWidth]
    cases t.tokens.getLast? with
    | none => rfl
    | some u => rfl
  rw [width_eq_fullWidths] at hwidth
  omega

/-- The names of a child give way to those of another tree. -/
theorem nameBytes_set {cs : List Tree} {i : Nat} {t : Tree} (h : cs[i]? = some t) (w : Tree) :
    nameBytes (tokensOf (cs.set i w)) + nameBytes t.tokens =
      nameBytes (tokensOf cs) + nameBytes w.tokens := by
  obtain ⟨left, right, rfl, rfl⟩ := exists_split_of_getElem? h
  simp only [List.set_append_right _ _ (Nat.le_refl _), Nat.sub_self, List.set_cons_zero,
    tokensOf_append, tokensOf, nameBytes_append]
  omega

theorem nameBytes_eraseIdx {cs : List Tree} {i : Nat} {t : Tree} (h : cs[i]? = some t) :
    nameBytes (tokensOf cs) = nameBytes (tokensOf (cs.eraseIdx i)) + nameBytes t.tokens := by
  obtain ⟨left, right, rfl, rfl⟩ := exists_split_of_getElem? h
  simp only [List.eraseIdx_append_of_length_le (Nat.le_refl _), Nat.sub_self, List.eraseIdx_cons_zero,
    tokensOf_append, tokensOf, nameBytes_append]
  omega

end Tree

namespace Build

theorem nameBytes_memberAccess (receiver : Tree) (name : String) :
    nameBytes (memberAccess receiver name).tokens = nameBytes receiver.tokens + name.utf8ByteSize := by
  have hname : nameBytes (identifierName name).tokens = name.utf8ByteSize := Nat.add_zero _
  have hdot : nameBytes (token .dot).tokens = 0 := rfl
  simp only [memberAccess, tokens, tokensOf, nameBytes_append, hname, hdot, nameBytes_nil]
  omega

/-- Arguments have the names of the first one at least. -/
theorem le_nameBytes_argumentList (value : Tree) (more : List Tree) :
    nameBytes value.tokens ≤ nameBytes (argumentList ((value :: more).map argument)).tokens := by
  obtain ⟨rest, hrest⟩ : ∃ rest, commaSeparated ((value :: more).map argument) =
      argument value :: rest := by
    cases more with
    | nil => exact ⟨_, rfl⟩
    | cons second more => exact ⟨_, rfl⟩
  simp only [argumentList, hrest, argument, tokens, tokensOf, tokensOf_append, nameBytes_append]
  omega

end Build

/-! ## Formatting -/

namespace Repair.FormatCall

variable {module : String} {kind : FloatKind} {n : Node} {r : Tree}

/-- The path of the method ends with `ToString`, and there is a name in front of that. -/
theorem exists_receiver_of_dotted {path : Tree}
    (h : Build.dotted? (calleeFor module kind) = some path) :
    ∃ receiver, path = Build.memberAccess receiver "ToString" ∧ 0 < nameBytes receiver.tokens := by
  have hkind : 0 < kind.name.utf8ByteSize ∧ kind.name ≠ "" ∧
      splitAtEach '.' kind.name.toList = [kind.name.toList] := by
    cases kind with
    | single => decide
    | double => decide
  obtain ⟨hpos, hne, hwhole⟩ := hkind
  rw [calleeFor_eq, Build.dotted?, Build.segments_append_dot _ _ (by decide) (by decide),
    Build.segments_append_dot _ _ hwhole hne] at h
  cases hmodule : Build.segments module with
  | nil =>
    rw [hmodule] at h
    exact ⟨_, (Option.some.inj h).symm, hpos⟩
  | cons first others =>
    rw [hmodule, List.cons_append, List.cons_append] at h
    have hpath := (Option.some.inj h).symm
    rw [List.foldl_append, List.foldl_append] at hpath
    refine ⟨_, hpath, ?_⟩
    show 0 < nameBytes (Build.memberAccess _ kind.name).tokens
    rw [Build.nameBytes_memberAccess]
    omega

theorem lt_nameBytes_dotted {path : Tree} (h : Build.dotted? (calleeFor module kind) = some path) :
    "ToString".utf8ByteSize < nameBytes path.tokens := by
  obtain ⟨receiver, rfl, hpos⟩ := exists_receiver_of_dotted h
  rw [Build.nameBytes_memberAccess]
  omega

theorem nameBytes_bare (n : Node) : nameBytes (bare n).tokens = nameBytes n.tree.tokens :=
  nameBytes_withTrivia n.tree [] []

/-- A call of a member, with the names in it. -/
theorem CallOf.nameBytes_le {member receiver list : Node} (h : CallOf n member receiver list)
    (hn : n.tree.Sound)
    (hname : ∀ parts, member.memberAccess? = some parts → parts.nameText = "ToString") :
    ∃ opening rest, list.children = .token opening :: rest ∧
      nameBytes n.tree.tokens ≤
        nameBytes receiver.tree.tokens + "ToString".utf8ByteSize + nameBytes (tokensOf rest) := by
  obtain ⟨name, haccess⟩ := h.access
  have htext : name.text = "ToString" := hname _ haccess
  obtain ⟨hkind, hparts⟩ := Option.ite_none_right_eq_some.mp haccess
  have hmember : member.tree.Sound := hn.child (by simp [h.children])
  obtain ⟨receiver', name', sign, hnodes, hchildren, -, -, hsign⟩ :=
    Node.childNodes_memberAccess hmember.shaped hkind
  simp only [Node.childNode?, hnodes, Option.some.injEq, Node.MemberParts.mk.injEq,
    List.getElem?_cons_zero, List.getElem?_cons_succ] at hparts
  obtain ⟨rfl, rfl⟩ := hparts
  have hlist := (h.sound hn).2
  obtain ⟨count, hlabels⟩ := Node.form hlist.shaped h.kind
  obtain ⟨opening, rest, hrest, -⟩ := exists_cons_of_labels_token hlabels
  have hopening : opening.kind = .openParen := by
    rw [hrest] at hlabels
    exact Label.token.inj (List.cons.inj hlabels).1
  have hbytes := nameBytes_le_text name'.tree
  rw [show name'.tree.text = "ToString" from htext] at hbytes
  have hnames : byteLength "ToString".toList = "ToString".utf8ByteSize := by decide
  refine ⟨opening, rest, hrest, ?_⟩
  rw [Node.tree, h.children, Node.tree, Node.tree, hchildren, hrest]
  simp only [tokens, tokensOf, nameBytes_append, List.append_nil, List.singleton_append,
    nameBytes_cons_of_ne (show sign.kind ≠ .identifier by rw [hsign]; decide),
    nameBytes_cons_of_ne (show opening.kind ≠ .identifier by rw [hopening]; decide)]
  omega

theorem nameBytes_commaFor (opening : Token) (rest : List Tree) :
    nameBytes (tokensOf (commaFor opening rest)) = 0 := by
  unfold commaFor
  split
  · rfl
  · rfl

/-- A call of `ToString` has fewer names than the new call. -/
theorem nameBytes_qualifiedCall (hn : n.tree.Sound)
    (hname : ∀ member parts, n.childNode? 0 = some member → member.memberAccess? = some parts →
      parts.nameText = "ToString")
    (h : qualifiedCall? (calleeFor module kind) n = some r) :
    nameBytes n.tree.tokens < nameBytes r.tokens := by
  obtain ⟨member, receiver, list, path, hparts, hpath, rfl⟩ := exists_callOf_of_qualifiedCall hn h
  have hmember : n.childNode? 0 = some member := by
    obtain ⟨-, hcall⟩ := Option.ite_none_right_eq_some.mp hparts.call
    exact (Node.CallParts.mk.inj (Option.some.inj hcall)).1
  obtain ⟨opening, rest, hrest, hle⟩ :=
    hparts.nameBytes_le hn fun parts => hname member parts hmember
  have hlonger := lt_nameBytes_dotted hpath
  have hopen : nameBytes (Build.token .openParen).tokens = 0 := rfl
  rw [nameBytes_withTriviaFrom, prependArgument_eq hrest]
  simp only [Build.call, Build.argument, tokens, tokensOf, tokensOf_append, nameBytes_append, hopen,
    nameBytes_bare, nameBytes_commaFor, nameBytes_nil, List.cons_append]
  omega

/-- An expression has fewer names than the call around it. -/
theorem nameBytes_wrap {more : List Tree} (h : wrap? (calleeFor module kind) n more = some r) :
    nameBytes n.tree.tokens < nameBytes r.tokens := by
  obtain ⟨path, hpath, h⟩ := Option.bind_eq_some_iff.mp h
  obtain rfl := Option.some.inj h
  have hlonger := lt_nameBytes_dotted hpath
  have harguments := Build.le_nameBytes_argumentList (bare n) more
  rw [nameBytes_bare] at harguments
  rw [nameBytes_withTriviaFrom]
  simp only [Build.call, tokens, tokensOf, nameBytes_append]
  omega

/-- A format clause has no names. -/
theorem nameBytes_formatClause {clause : Node} (h : clause.tree.Shaped)
    (hkind : clause.kind = .interpolationFormatClause) : nameBytes clause.tree.tokens = 0 := by
  have hlabels : IsFormatClause (clause.children.map label) := Node.form h hkind
  rcases hlabels with hlabels | hlabels
  · obtain ⟨colon, rest, hchildren, hrest⟩ := exists_cons_of_labels_token hlabels
    obtain rfl := List.map_eq_nil_iff.mp hrest
    rw [hchildren] at hlabels
    have hcolon : colon.kind = .colon := Label.token.inj (List.cons.inj hlabels).1
    rw [Node.tree, hchildren]
    exact nameBytes_eq_zero (by simp [tokens, tokensOf, hcolon])
  · obtain ⟨colon, rest, hchildren, hrest⟩ := exists_cons_of_labels_token hlabels
    obtain ⟨text, _, rfl, hnone⟩ := exists_cons_of_labels_token hrest
    obtain rfl := List.map_eq_nil_iff.mp hnone
    rw [hchildren] at hlabels
    have hcolon : colon.kind = .colon := Label.token.inj (List.cons.inj hlabels).1
    have htext : text.kind = .interpolatedFormatText := Label.token.inj (List.cons.inj hrest).1
    rw [Node.tree, hchildren]
    exact nameBytes_eq_zero (by simp [tokens, tokensOf, hcolon, htext])

/-- A hole has fewer names than the new hole. -/
theorem nameBytes_qualifiedHole (hn : n.tree.Sound)
    (h : qualifiedHole? (calleeFor module kind) n = some r) :
    nameBytes n.tree.tokens < nameBytes r.tokens := by
  obtain ⟨parts, hparts, h⟩ := Option.bind_eq_some_iff.mp h
  obtain ⟨e, he, h⟩ := Option.bind_eq_some_iff.mp h
  obtain ⟨w, hw, h⟩ := Option.bind_eq_some_iff.mp h
  obtain rfl := Option.some.inj h
  obtain ⟨hkind, -⟩ := Option.ite_none_right_eq_some.mp hparts
  obtain ⟨e', parts', hmem, hexpression, hparts', he', hclause⟩ := exists_hole hn.shaped hkind
  obtain rfl := Option.some.inj (hparts.symm.trans hparts')
  obtain rfl := Option.some.inj (he.symm.trans he')
  have hwrapped := nameBytes_wrap hw
  have hset := nameBytes_set (Node.children_getElem?_index hmem) w
  have hold : nameBytes n.tree.tokens = nameBytes (tokensOf n.children) := rfl
  cases hformat : parts.format with
  | none =>
    show _ < nameBytes (tokensOf (n.children.set e.index w))
    omega
  | some clause =>
    have hfound := hclause.symm.trans hformat
    obtain ⟨hclauseMem, hclauseKind⟩ := Node.of_childOfKind? hfound
    have hnone := nameBytes_formatClause (hn.child (Node.tree_mem_children hclauseMem)).shaped
      hclauseKind
    have herase := nameBytes_eraseIdx (getElem?_set_of_clause hmem hexpression hfound w)
    show _ < nameBytes (tokensOf ((n.children.set e.index w).eraseIdx clause.index))
    omega

/-- What is formatted has fewer names than what takes its place. -/
theorem nameBytes_replacement {site : Site} (hn : n.tree.Sound)
    (hcallee : site.callee = calleeFor module kind)
    (hname : site.shape = .call → ∀ member parts, n.childNode? 0 = some member →
      member.memberAccess? = some parts → parts.nameText = "ToString")
    (h : site.replacement? n = some r) : nameBytes n.tree.tokens < nameBytes r.tokens := by
  unfold Site.replacement? at h
  rw [hcallee] at h
  split at h
  · rename_i hshape
    exact nameBytes_qualifiedCall hn (hname hshape) h
  · exact nameBytes_wrap h
  · exact nameBytes_qualifiedHole hn h

end Repair.FormatCall

/-! ## Declarations -/

namespace Repair.Visibility

/-- Tokens that are no names can be left out. -/
theorem nameBytes_filter {p : Token → Bool} (h : ∀ t ∈ ts, p t = false → t.kind ≠ .identifier) :
    nameBytes (ts.filter p) = nameBytes ts := by
  induction ts with
  | nil => rfl
  | cons t ts ih =>
    rw [List.forall_mem_cons] at h
    rw [List.filter_cons]
    split
    · rw [nameBytes, nameBytes, ih h.2]
    · rename_i hp
      rw [nameBytes_cons_of_ne (h.1 (Bool.eq_false_iff.mpr hp)), ih h.2]

theorem kind_ne_of_isAccessibility {t : Token} (h : isAccessibility t = true) :
    t.kind ≠ .identifier := by
  intro hkind
  rw [isAccessibility, hkind] at h
  cases h

theorem nameBytes_internalFirst (leading : List Trivia) (modifiers : List Token) :
    nameBytes (internalFirst leading modifiers) = nameBytes modifiers := by
  have hinternal : (internalToken leading modifiers).kind ≠ .identifier := nofun
  have hwords : ((keptModifiers modifiers).map behindLeading).map Token.word =
      ((modifiers.filter (!isAccessibility ·)).map behindLeading).map Token.word :=
    congrArg (List.map Token.word) (map_keptModifiers modifiers)
  rw [List.map_map, List.map_map] at hwords
  have hkept : nameBytes (keptModifiers modifiers) =
      nameBytes (modifiers.filter (!isAccessibility ·)) := nameBytes_eq_of_words hwords
  rw [internalFirst_eq, nameBytes_cons_of_ne hinternal, hkept]
  exact nameBytes_filter fun t _ ht => kind_ne_of_isAccessibility (by simpa using ht)

/-- A declaration made internal has the names that it had. -/
theorem nameBytes_withInternal {n : Node} {r : Tree} (hn : n.tree.Shaped)
    (hkind : n.kind.isTypeDeclaration = true) (h : withInternal? n = some r) :
    nameBytes n.tree.tokens = nameBytes r.tokens := by
  obtain ⟨p, hp⟩ := exists_parts hn hkind
  rw [withInternal?, hp, p.internalChildren?_children] at h
  obtain rfl := Option.some.inj h
  have hword : nameBytes [p.internal.word] = nameBytes [p.word] := by
    unfold DeclarationParts.internal
    dsimp only
    split
    · rfl
    · rfl
  have hmodifiers := nameBytes_internalFirst p.first.leading p.modifiers
  rw [Node.tree, hp]
  simp only [DeclarationParts.children, Build.modifierList, tokens, tokensOf, tokensOf_append,
    nameBytes_append, tokensOf_map_token, hword]
  show _ = nameBytes (tokensOf p.attributes) + (nameBytes (internalFirst _ _) + (_ + nameBytes (tokensOf p.rest)))
  omega

end Repair.Visibility

/-! ## Edits -/

/-- The edit puts more names in the place of a node than that has. -/
def Edit.AddsNames (root : Tree) (e : Edit) : Prop :=
  ∃ n, (Node.root root).findNode? e.target e.kind = some n ∧
    nameBytes n.tree.tokens < nameBytes e.replacement.tokens

/-- Edits that all have `more` bytes of names beyond those of their targets add them up. -/
theorem nameBytes_replaceTargets (document : DocumentId) {edits : List Located} {root new : Tree}
    (h : FitsFromRight root edits) {more : Nat}
    (hmore : ∀ l ∈ edits, ∀ n, (Node.root root).findNode? l.edit.target l.edit.kind = some n →
      nameBytes n.tree.tokens + more ≤ nameBytes l.edit.replacement.tokens)
    (hok : replaceTargets document root (edits.map Located.edit) = .ok new) :
    nameBytes root.tokens + edits.length * more ≤ nameBytes new.tokens := by
  induction edits generalizing root with
  | nil =>
    obtain rfl := Except.ok.inj hok
    simp
  | cons l edits ih =>
    rw [List.forall_mem_cons] at hmore
    obtain ⟨n, hn, -, hlater, hstays⟩ := h.step
    rw [List.map_cons, replaceTargets_cons document hn] at hok
    have hrest := ih hlater (fun k hk m hm => ?_) hok
    · obtain ⟨front, behind, hold, hnew, -⟩ :=
        (Node.replaced_of_findNode? l.edit.replacement hn).exists_tokens
      rw [Node.tokens_tree_root] at hold
      have hone := hmore.1 n hn
      rw [hnew] at hrest
      rw [hold, List.length_cons, Nat.succ_mul]
      simp only [nameBytes_append] at hrest ⊢
      omega
    · obtain ⟨m', hm', -, htree⟩ := (hstays k hk).tree_eq hm
      rw [htree]
      exact hmore.2 k hk m' hm'

/-! ## Findings -/

namespace Repair.FormatCall

variable {s : Snapshot} {host : Host} {d : Diagnostic} {document : Document} {b : Bindings}
  {f : Finding} {n : Node}

/-- What is chosen for a call is a call of `ToString`. -/
theorem nameText_of_chooseCall {root : Tree} (hroot : root.Sound) (hn : n.Inside root)
    (hkind : n.kind = .simpleMemberAccessExpression)
    (hcall : Rule.Formatting.callsToString b n = true) {c : Choice} (hchoice : chooseCall? n = some c)
    {member : Node} {parts : Node.MemberParts} (hmember : c.target.childNode? 0 = some member)
    (hparts : member.memberAccess? = some parts) : parts.nameText = "ToString" := by
  obtain ⟨receiver, -, h⟩ := Option.bind_eq_some_iff.mp hchoice
  obtain ⟨call, hparent, h⟩ := Option.bind_eq_some_iff.mp h
  obtain rfl := Option.some.inj h
  obtain ⟨hparent, hcallKind⟩ := Option.filter_eq_some_iff.mp hparent
  obtain ⟨hinside, hmem⟩ := hn.of_parent? hparent
  have hfirst :=
    childNode?_of_memberAccess (hinside.sound hroot) (beq_iff_eq.mp hcallKind) hmem hkind
  obtain rfl := Option.some.inj (hfirst.symm.trans hmember)
  obtain ⟨own, hown, hcalls⟩ := (Option.any_eq_true _ _).mp hcall
  obtain rfl := Option.some.inj (hparts.symm.trans hown)
  exact beq_iff_eq.mp (Bool.and_eq_true_iff.mp (Bool.and_eq_true_iff.mp hcalls).1).1

/-- The fix for a finding has one edit, and that adds names. -/
theorem exists_edit_addsNames (module : String) (hs : s.Sound) (hd : d.Reports s host document b f)
    (hn : n.Inside document.root) (hf : f ∈ Rule.Formatting.check b n) {fix : Fix}
    (hfix : fix ∈ (provider module).propose s host d) :
    ∃ e, fix.changes s = .ok (.single document.id e) ∧ e.Fits document.root ∧
      e.AddsNames document.root := by
  obtain ⟨c, hreported, hchoice, hsited, hgoes⟩ := exists_choice hs hd hn hf
  obtain ⟨kind, own, r, -, hpropose, hr, hchanges, hfits⟩ :=
    exists_fitting_fix module hd hreported hchoice hsited
  rw [hpropose] at hfix
  obtain rfl := List.mem_singleton.mp hfix
  have hroot := hs.root document hd.mem
  have htarget := (Node.Inside.of_findNode? hsited.found).sound hroot
  refine ⟨_, hchanges, hfits, c.target, hsited.found, ?_⟩
  refine nameBytes_replacement htarget rfl (fun hshape member parts hmember hparts => ?_) hr
  -- what is reported without a call is replaced as an operand or as a hole
  obtain ⟨hdescriptor, rfl, hkind, hcall⟩ | ⟨hdescriptor, -⟩ := Rule.Formatting.check_cases hn hf
  · rw [hd.code, hdescriptor, if_pos rfl] at hchoice
    exact nameText_of_chooseCall hroot hn hkind hcall hchoice hmember hparts
  · have hcode : d.code ≠ Rule.Formatting.explicitDescriptor.code := by
      rw [hd.code, hdescriptor]
      decide
    have hshape : c.shape = .call := hshape
    rw [Choice.GoesWith, if_neg hcode, hshape] at hgoes
    rcases hgoes with hhole | ⟨hoperand, -⟩
    · cases hhole
    · cases hoperand

end Repair.FormatCall

end SharpLint
