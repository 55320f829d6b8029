import SharpLint.Proofs.Repair.Proposal
import SharpLint.Proofs.Rule.Formatting
import SharpLint.Repair.FormatCall

/-!
# Calls of a formatting module

In a sound tree the three replacements exist, whatever the module, and are sound:

    qualifiedCall? callee call         a call in the place of a call
    wrap? callee expression more       a call in the place of an expression
    qualifiedHole? callee hole         a hole in the place of a hole

So every finding of the rule for formatting has a fix that works (`serves`): the reported node is
found by its span, the node to replace is found by its span and kind, and the new tree may stand
there.
-/

namespace SharpLint

open SharpLint.Tree

/-! ## Holes -/

/-- A node in a hole is its expression, or stands behind that and before the brace. -/
theorem index_interpolation {ls : List Label} {i : Nat} {x : NodeKind} (h : Form .interpolation ls)
    (hx : ls[i]? = some (.node x)) :
    ∃ e rest, e.isExpression = true ∧
      ls = .token .openBrace :: .node e :: rest ++ [.token .closeBrace] ∧
      (i = 1 ∧ x = e ∨ ∃ j, j < rest.length ∧ i = j + 2) := by
  obtain ⟨e, rest, he, rfl⟩ := h
  refine ⟨e, rest, he, rfl, ?_⟩
  match i with
  | 0 => cases hx
  | 1 => exact .inl ⟨rfl, (Label.node.inj (Option.some.inj hx)).symm⟩
  | j + 2 =>
    refine .inr ⟨j, Nat.lt_of_not_le fun hj => ?_, rfl⟩
    have hrest : (rest ++ [Label.token .closeBrace])[j]? = some (.node x) := hx
    rw [List.getElem?_append_right hj, List.getElem?_singleton] at hrest
    split at hrest
    · cases hrest
    · cases hrest

/-- A hole in which a node is replaced by an expression is a hole. -/
theorem form_interpolation_set {ls : List Label} {i : Nat} {x y : NodeKind}
    (h : Form .interpolation ls) (hx : ls[i]? = some (.node x)) (hy : y.isExpression = true) :
    Form .interpolation (ls.set i (.node y)) := by
  obtain ⟨e, rest, he, rfl, ⟨rfl, -⟩ | ⟨j, hj, rfl⟩⟩ := index_interpolation h hx
  · exact ⟨y, rest, hy, rfl⟩
  · refine ⟨e, rest.set j (.node y), he, ?_⟩
    show _ :: _ :: (rest ++ [Label.token .closeBrace]).set j (.node y) = _
    rw [List.set_append_left j _ hj]
    rfl

/-- A hole without one of its clauses is a hole. -/
theorem form_interpolation_eraseIdx {ls : List Label} {i : Nat} {x : NodeKind}
    (h : Form .interpolation ls) (hx : ls[i]? = some (.node x)) (hclause : x.isExpression = false) :
    Form .interpolation (ls.eraseIdx i) := by
  obtain ⟨e, rest, he, rfl, ⟨-, rfl⟩ | ⟨j, hj, rfl⟩⟩ := index_interpolation h hx
  · rw [he] at hclause
    cases hclause
  · refine ⟨e, rest.eraseIdx j, he, ?_⟩
    show _ :: _ :: (rest ++ [Label.token .closeBrace]).eraseIdx j = _
    rw [List.eraseIdx_append_of_lt_length hj]
    rfl

theorem label_getElem?_index {n m : Node} (h : m ∈ n.childNodes) :
    (n.children.map label)[m.index]? = some (.node m.kind) := by
  rw [List.getElem?_map, Node.children_getElem?_index h]
  rfl

namespace Repair.FormatCall

/-! ## Replacements -/

/-- A call that can take the place of an expression. -/
structure IsCall (t : Tree) : Prop where
  sound : t.Sound
  label : t.label = .node .invocationExpression

theorem IsCall.expression {t : Tree} (h : IsCall t) : t.SoundExpression :=
  ⟨h.sound, _, h.label, rfl⟩

theorem isCall_call {path arguments : Tree} (hpath : path.SoundExpression)
    (harguments : arguments.Sound) (hlabel : arguments.label = .node .argumentList) (n : Node) :
    IsCall ((Build.call path arguments).withTriviaFrom n.tree) := by
  refine ⟨(Build.sound_call hpath harguments hlabel).sound.withTrivia _ _, ?_⟩
  rw [withTriviaFrom, label_withTrivia]
  rfl

theorem sound_bare {n : Node} (h : n.tree.Sound) : (bare n).Sound := h.withTrivia [] []

/-- The comma behind the new argument, if there were arguments. -/
def commaFor (opening : Token) (rest : List Tree) : List Tree :=
  if rest.any (·.kind? == some .argument) then
    [.token { Token.ofKind .comma with trailing := separator opening.trailing }]
  else []

theorem prependArgument_eq {list : Node} {opening : Token} {rest : List Tree}
    (h : list.children = .token opening :: rest) (first : Tree) :
    prependArgument list first = .node .argumentList
      (Build.token .openParen :: first :: commaFor opening rest ++ rest) := by
  simp only [prependArgument, Node.any_kind_childNodes, h, commaFor]
  rfl

theorem any_kind_iff_label (k : NodeKind) (cs : List Tree) :
    cs.any (·.kind? == some k) = true ↔ Label.node k ∈ cs.map Tree.label := by
  simp only [List.any_eq_true, beq_iff_eq, List.mem_map]
  refine exists_congr fun c => and_congr_right fun _ => ?_
  cases c with
  | token t => exact ⟨nofun, nofun⟩
  | node l ds =>
    exact ⟨fun h => congrArg Label.node (Option.some.inj h),
      fun h => congrArg some (Label.node.inj h)⟩

/-- With the new argument and its comma there is one argument more. -/
theorem labels_commaFor {opening : Token} {rest : List Tree} {count : Nat}
    (h : rest.map Tree.label = argumentLabels count ++ [.token .closeParen]) :
    .node .argument :: (commaFor opening rest ++ rest).map Tree.label =
      argumentLabels (count + 1) ++ [.token .closeParen] := by
  have hany := any_kind_iff_label .argument rest
  rw [h] at hany
  rw [List.map_append, h, commaFor]
  cases count with
  | zero =>
    rw [if_neg fun hsome => absurd (hany.mp hsome) (by decide)]
    rfl
  | succ count =>
    have hmem : Label.node .argument ∈ argumentLabels (count + 1) ++ [.token .closeParen] := by
      rw [argumentLabels_succ]
      exact List.mem_cons_self
    rw [if_pos (hany.mpr hmem)]
    rfl

theorem sound_commaFor {opening : Token} {rest : List Tree} :
    ∀ c ∈ commaFor opening rest, c.Sound := by
  have hcomma : (Token.ofKind .comma).text ≠ "" := by decide
  intro c hc
  unfold commaFor at hc
  split at hc
  · rw [List.mem_singleton.mp hc]
    exact .token fun _ => hcomma
  · cases hc

theorem sound_prependArgument {list : Node} {value : Tree} (hlist : list.tree.Sound)
    (hkind : list.kind = .argumentList) (hvalue : value.Sound) :
    (prependArgument list (Build.argument value)).Sound := by
  obtain ⟨opening, arguments, closing, count, hchildren, hlabels⟩ :=
    Node.children_argumentList hlist.shaped hkind
  let rest := arguments ++ [.token closing]
  have hrest : ∀ c ∈ Build.argument value :: (commaFor opening rest ++ rest), c.Sound := by
    rw [List.forall_mem_cons, List.forall_mem_append]
    exact ⟨Build.sound_argument hvalue, sound_commaFor,
      fun c hc => hlist.child (hchildren ▸ List.mem_cons_of_mem _ hc)⟩
  rw [prependArgument_eq hchildren]
  exact Build.sound_argumentListOf (labels_commaFor hlabels) hrest

variable {callee : String} {path : Tree}

/-- The parts of a call of a member. -/
structure CallOf (n member receiver list : Node) : Prop where
  call : n.call? = some ⟨some member, some list⟩
  access : ∃ name, member.memberAccess? = some ⟨some receiver, some name⟩
  children : n.children = [member.tree, list.tree]
  memberChildren : ∃ others, member.children = receiver.tree :: others
  kind : list.kind = .argumentList
  expression : receiver.kind.isExpression = true

theorem CallOf.sound {n member receiver list : Node} (h : CallOf n member receiver list)
    (hn : n.tree.Sound) : receiver.tree.Sound ∧ list.tree.Sound := by
  obtain ⟨others, hothers⟩ := h.memberChildren
  have hchild : ∀ c ∈ n.children, c.Sound := fun c hc => hn.child hc
  rw [h.children, List.forall_mem_cons, List.forall_mem_singleton] at hchild
  exact ⟨hchild.1.child (hothers ▸ List.mem_cons_self), hchild.2⟩

theorem exists_callOf {n m : Node} (hn : n.tree.Sound) (hkind : n.kind = .invocationExpression)
    (hm : n.childNode? 0 = some m) (hmember : m.kind = .simpleMemberAccessExpression) :
    ∃ receiver list, CallOf n m receiver list := by
  obtain ⟨first, list, hnodes, hchildren, -, hlist⟩ := Node.childNodes_invocation hn.shaped hkind
  obtain rfl : first = m := by
    rw [Node.childNode?, hnodes] at hm
    exact Option.some.inj hm
  have hfirst : first.tree.Sound :=
    hn.child (Node.tree_mem_children (hnodes ▸ List.mem_cons_self))
  obtain ⟨receiver, name, sign, hparts, hothers, hreceiver, -⟩ :=
    Node.childNodes_memberAccess hfirst.shaped hmember
  have hfound : n.childOfKind? .argumentList = some list := by
    simp [Node.childOfKind?, hnodes, hmember, hlist]
  refine ⟨receiver, list, ?_, ⟨name, ?_⟩, hchildren, ⟨_, hothers⟩, hlist, hreceiver⟩
  · rw [Node.call?, if_pos hkind, hm, hfound]
  · rw [Node.memberAccess?, if_pos hmember, Node.childNode?, Node.childNode?, hparts]
    rfl

theorem CallOf.qualifiedCall?_eq {n member receiver list : Node} (h : CallOf n member receiver list)
    (callee : String) : qualifiedCall? callee n = (Build.dotted? callee).map fun path =>
      (Build.call path (prependArgument list (Build.argument (bare receiver)))).withTriviaFrom
        n.tree := by
  obtain ⟨name, haccess⟩ := h.access
  cases hpath : Build.dotted? callee with
  | none => simp [qualifiedCall?, h.call, hpath]
  | some path => simp [qualifiedCall?, h.call, haccess, hpath]

/-- A call of a member can be replaced. -/
theorem exists_qualifiedCall (hpath : Build.dotted? callee = some path) {n m : Node}
    (hn : n.tree.Sound) (hkind : n.kind = .invocationExpression) (hm : n.childNode? 0 = some m)
    (hmember : m.kind = .simpleMemberAccessExpression) :
    ∃ t, qualifiedCall? callee n = some t ∧ IsCall t := by
  obtain ⟨receiver, list, h⟩ := exists_callOf hn hkind hm hmember
  obtain ⟨hreceiver, hlist⟩ := h.sound hn
  refine ⟨_, ?_, isCall_call (Build.sound_dotted hpath)
    (sound_prependArgument hlist h.kind (sound_bare hreceiver)) rfl n⟩
  rw [h.qualifiedCall?_eq, hpath]
  rfl

/-- Every expression can be wrapped into a call. -/
theorem exists_wrap (hpath : Build.dotted? callee = some path) {n : Node} (hn : n.tree.Sound)
    {more : List Tree} (hmore : ∀ t ∈ more, t.Sound) :
    ∃ t, wrap? callee n more = some t ∧ IsCall t := by
  have hvalues : ∀ t ∈ bare n :: more, t.Sound := List.forall_mem_cons.mpr ⟨sound_bare hn, hmore⟩
  refine ⟨_, ?_, isCall_call (Build.sound_dotted hpath) (Build.sound_argumentList hvalues) rfl n⟩
  simp [wrap?, hpath]

/-- The expression of a hole is a child of it. -/
theorem exists_hole {n : Node} (hn : n.tree.Shaped) (hkind : n.kind = .interpolation) :
    ∃ e parts, e ∈ n.childNodes ∧ e.kind.isExpression = true ∧ n.hole? = some parts ∧
      parts.expression = some e ∧ parts.format = n.childOfKind? .interpolationFormatClause := by
  obtain ⟨e, rest, hnodes, he⟩ := Node.childNodes_interpolation hn hkind
  have hclause : (!(e.kind == .interpolationAlignmentClause ||
      e.kind == .interpolationFormatClause)) = true := by
    cases hk : e.kind
    all_goals first
      | rfl
      | (rw [hk] at he; cases he)
  refine ⟨e, ⟨some e, n.childOfKind? .interpolationAlignmentClause,
    n.childOfKind? .interpolationFormatClause⟩, hnodes ▸ List.mem_cons_self, he, ?_, rfl, rfl⟩
  simp only [Node.hole?, if_pos hkind, Node.childNode?, hnodes, List.getElem?_cons_zero,
    Option.filter_some, hclause, if_true]

/-- A hole that can take the place of a hole. -/
structure IsHole (t : Tree) : Prop where
  sound : t.Sound
  label : t.label = .node .interpolation
  hasWord : t.HasWord

theorem isHole_node {cs : List Tree} (hform : Form .interpolation (cs.map Tree.label))
    (hcs : ∀ c ∈ cs, c.Sound) : IsHole (.node .interpolation cs) := by
  have hsound : (Tree.node .interpolation cs).Sound := .node ⟨hform, nofun⟩ hcs
  obtain ⟨e, rest, -, hlabels⟩ := hform
  have hbrace : Label.token .openBrace ∈ cs.map Tree.label := by
    rw [hlabels]
    exact List.mem_cons_self
  exact ⟨hsound, rfl, hsound.shaped.hasWord_of_mem hbrace rfl⟩

/-- The children of a hole with a call in the place of its expression. -/
theorem form_set_call {n e : Node} (hn : n.tree.Sound) (hkind : n.kind = .interpolation)
    (he : e ∈ n.childNodes) {w : Tree} (hw : IsCall w) :
    Form .interpolation ((n.children.set e.index w).map Tree.label) ∧
      ∀ c ∈ n.children.set e.index w, c.Sound := by
  constructor
  · rw [List.map_set, hw.label]
    exact form_interpolation_set (Node.form hn.shaped hkind) (label_getElem?_index he) rfl
  · intro c hc
    rcases List.mem_or_eq_of_mem_set hc with hc | rfl
    · exact hn.child hc
    · exact hw.sound

/-- The expression of a hole is not its format clause. -/
theorem index_ne_of_clause {n e clause : Node} (he : e ∈ n.childNodes)
    (hexpression : e.kind.isExpression = true)
    (hclause : n.childOfKind? .interpolationFormatClause = some clause) :
    e.index ≠ clause.index := by
  obtain ⟨hmem, hkind⟩ := Node.of_childOfKind? hclause
  intro hindex
  have hsame := label_getElem?_index he
  rw [hindex, label_getElem?_index hmem, hkind] at hsame
  rw [← Label.node.inj (Option.some.inj hsame)] at hexpression
  cases hexpression

/-- The format clause stays where it is when the expression is replaced. -/
theorem getElem?_set_of_clause {n e clause : Node} (he : e ∈ n.childNodes)
    (hexpression : e.kind.isExpression = true)
    (hclause : n.childOfKind? .interpolationFormatClause = some clause) (w : Tree) :
    (n.children.set e.index w)[clause.index]? = some clause.tree := by
  rw [List.getElem?_set_ne (index_ne_of_clause he hexpression hclause),
    Node.children_getElem?_index (Node.of_childOfKind? hclause).1]

/-- A hole can be replaced by one with a call for its expression. -/
theorem exists_qualifiedHole (hpath : Build.dotted? callee = some path) {n : Node}
    (hn : n.tree.Sound) (hkind : n.kind = .interpolation) :
    ∃ t, qualifiedHole? callee n = some t ∧ IsHole t := by
  obtain ⟨e, parts, hmem, he, hhole, hexpression, hclause⟩ := exists_hole hn.shaped hkind
  have hformat : ∀ t ∈ (parts.formatText.map Build.stringLiteral).toList, t.Sound := by
    intro t ht
    obtain ⟨text, -, rfl⟩ := Option.map_eq_some_iff.mp (Option.mem_toList.mp ht)
    exact Build.sound_stringLiteral text
  obtain ⟨w, hw, hcall⟩ := exists_wrap hpath (hn.child (Node.tree_mem_children hmem)) hformat
  obtain ⟨hform, hchildren⟩ := form_set_call hn hkind hmem hcall
  cases hparts : parts.format with
  | none =>
    refine ⟨_, ?_, isHole_node hform hchildren⟩
    simp [qualifiedHole?, hhole, hexpression, hw, hparts]
  | some clause =>
    have herase : ((n.children.set e.index w).eraseIdx clause.index).map Tree.label =
        ((n.children.set e.index w).map Tree.label).eraseIdx clause.index := by
      simp only [List.eraseIdx_eq_take_drop_succ, List.map_append, List.map_take, List.map_drop]
    have hfound := hclause.symm.trans hparts
    have hlabel : ((n.children.set e.index w).map Tree.label)[clause.index]? =
        some (.node .interpolationFormatClause) := by
      rw [List.getElem?_map, getElem?_set_of_clause hmem he hfound w,
        ← (Node.of_childOfKind? hfound).2]
      rfl
    have hform' : Form .interpolation
        (((n.children.set e.index w).eraseIdx clause.index).map Tree.label) := by
      rw [herase]
      exact form_interpolation_eraseIdx hform hlabel rfl
    refine ⟨_, ?_, isHole_node hform' fun c hc => hchildren c (List.mem_of_mem_eraseIdx hc)⟩
    simp [qualifiedHole?, hhole, hexpression, hw, hparts]

/-! ## Proposals -/

/-- Path of the method for a kind of number. -/
def calleeFor (module : String) (kind : FloatKind) : String :=
  module ++ "." ++ kind.name ++ ".ToString"

theorem calleeFor_eq (module : String) (kind : FloatKind) :
    calleeFor module kind = module ++ "." ++ kind.name ++ "." ++ "ToString" := by
  rw [calleeFor, @String.append_assoc (module ++ "." ++ kind.name)]
  rfl

/-- The path of the method can be written out, whatever the module. -/
theorem exists_dotted_callee (module : String) (kind : FloatKind) :
    ∃ path, Build.dotted? (calleeFor module kind) = some path := by
  rw [calleeFor_eq]
  exact Build.exists_dotted _ "ToString" (by decide) (by decide)

theorem exists_floatKind {b : Bindings} {n : Node} (h : b.isFloatingExpression n = true) :
    ∃ kind, (b.typeOf? n).bind TypeInfo.floatKind? = some kind := by
  obtain ⟨info, hinfo, hfloat⟩ := (Option.any_eq_true _ _).mp h
  rw [hinfo]
  exact Option.isSome_iff_exists.mp hfloat

/-- A choice whose target is found by its span and kind, and can be replaced. -/
structure Choice.Sited (root : Tree) (b : Bindings) (c : Choice) : Prop where
  typed : b.isFloatingExpression c.typed = true
  found : (Node.root root).findNode? c.target.span c.target.kind = some c.target
  nonempty : c.target.span.start < c.target.span.stop
  replaced : ∀ site : Site, site.shape = c.shape → (∃ path, Build.dotted? site.callee = some path) →
    ∃ r, site.replacement? c.target = some r ∧ c.target.Accepts r.label ∧ r.Sound ∧ r.HasWord

variable {s : Snapshot} {host : Host} {d : Diagnostic} {document : Document} {b : Bindings}
  {f : Finding} {n : Node}

/-- A site for what was chosen. -/
structure Site.IsFor (site : Site) (c : Choice) : Prop where
  span : site.target = c.target.span
  kind : site.kind = c.target.kind
  shape : site.shape = c.shape
  callee : ∃ path, Build.dotted? site.callee = some path

/-- The one edit of a site that is found and can be replaced fits. -/
theorem Site.exists_changes {site : Site} (hdocument : s.find? site.document = some document)
    {c : Choice} (hc : c.Sited document.root b) (hsite : site.IsFor c) :
    ∃ r, site.replacement? c.target = some r ∧
      site.changes s = .ok (.single site.document (.ofNode c.target r)) ∧
      (Edit.ofNode c.target r).Fits document.root := by
  obtain ⟨r, hr, haccepts, hsound, hword⟩ := hc.replaced site hsite.shape hsite.callee
  have hfound : document.rootNode.findNode? site.target site.kind = some c.target := by
    rw [hsite.span, hsite.kind]
    exact hc.found
  refine ⟨r, hr, ?_, Edit.fits_ofNode hc.found hc.nonempty haccepts hsound hword⟩
  simp only [Site.changes, hdocument, hfound, hr]

/-- The site of what was chosen, in a document. -/
def Choice.site (c : Choice) (document : DocumentId) (callee : String) : Site :=
  ⟨document, c.target.span, c.target.kind, c.shape, callee⟩

theorem Choice.isFor_site (c : Choice) (document : DocumentId) (module : String) (kind : FloatKind) :
    (c.site document (calleeFor module kind)).IsFor c :=
  ⟨rfl, rfl, rfl, exists_dotted_callee module kind⟩

/-- The choice for what was reported makes the fix for its site. -/
theorem propose_of_choice (module : String) (hd : d.Reports s host document b f)
    (hreported : s.reportedNode? d = some f.node) {c : Choice}
    (hchoice : (if d.code = Rule.Formatting.explicitDescriptor.code then chooseCall? f.node
      else some (chooseExpression f.node)) = some c) {kind : FloatKind}
    (hkind : (b.typeOf? c.typed).bind TypeInfo.floatKind? = some kind) :
    (provider module).propose s host d = [⟨"Use " ++ calleeFor module kind ++ "(...)", key,
      document.id, (c.site document.id (calleeFor module kind)).changes⟩] := by
  obtain ⟨info, hinfo, hnumber⟩ := Option.bind_eq_some_iff.mp hkind
  simp only [provider, propose?, hreported, hd.place, hd.bindings, Option.bind_eq_bind,
    Option.bind_some, Option.pure_def, Choice.site, calleeFor]
  split at hchoice
  · rename_i hcode
    simp only [if_pos hcode, hchoice, Option.bind_some, hinfo, hnumber, Option.toList_some]
  · rename_i hcode
    obtain rfl := Option.some.inj hchoice
    simp only [if_neg hcode, hinfo, Option.bind_some, hnumber, Option.toList_some]

/-! ### Calls -/

theorem hasWord_of_isExpression {n : Node} (hn : n.tree.Sound) (h : n.kind.isExpression = true) :
    n.tree.HasWord :=
  hn.hasWord (Label.isSolid_of_isExpression h)

theorem IsCall.hasWord {t : Tree} (h : IsCall t) : t.HasWord := h.sound.hasWord h.expression.isSolid

theorem isCallee_iff {n : Node} {t : Tree} (hn : n.Inside t) (h : Rule.Formatting.isCallee n = true) :
    ∃ p : Node, p.Inside t ∧ n ∈ p.childNodes ∧ p.kind = .invocationExpression := by
  obtain ⟨p, hp, hcalls⟩ := (Option.any_eq_true _ _).mp h
  obtain ⟨hinside, hmem⟩ := hn.of_parent? hp
  exact ⟨p, hinside, hmem, beq_iff_eq.mp (Bool.and_eq_true_iff.mp hcalls).1⟩

/-- A member access below a call is its callee, because the other child is the list of arguments. -/
theorem childNode?_of_memberAccess {p : Node} (hp : p.tree.Sound)
    (hpkind : p.kind = .invocationExpression) (hmem : n ∈ p.childNodes)
    (hkind : n.kind = .simpleMemberAccessExpression) : p.childNode? 0 = some n := by
  obtain ⟨callee, list, hnodes, -, -, hlist⟩ := Node.childNodes_invocation hp.shaped hpkind
  rw [hnodes, List.mem_cons, List.mem_singleton] at hmem
  rcases hmem with rfl | rfl
  · rw [Node.childNode?, hnodes]
    rfl
  · rw [hkind] at hlist
    cases hlist

/-- The callee of a call is found by its span, and the call by its span and kind. -/
theorem sited_call {root : Tree} (hroot : root.Sound) (hn : n.Inside root)
    (hkind : n.kind = .simpleMemberAccessExpression)
    (hcall : Rule.Formatting.callsToString b n = true) :
    n.tree.HasWord ∧ n.Tight ∧ ∃ c, chooseCall? n = some c ∧ c.Sited root b := by
  have hword : n.tree.HasWord := hasWord_of_isExpression (hn.sound hroot) (by rw [hkind]; rfl)
  obtain ⟨parts, hparts, hcalls⟩ := (Option.any_eq_true _ _).mp hcall
  obtain ⟨hcalls, hreceiver⟩ := Bool.and_eq_true_iff.mp hcalls
  obtain ⟨receiver, hreceiver, hfloat⟩ := (Option.any_eq_true _ _).mp hreceiver
  obtain ⟨p, hp, hmem, hpkind⟩ := isCallee_iff hn (Bool.and_eq_true_iff.mp hcalls).2
  have hpsound := hp.sound hroot
  have hwide (a : Node) (ha : a.Inside root) (hakind : a.kind = .invocationExpression) : a.Wide :=
    Node.wide_of_sound (ha.sound hroot) (by rw [hakind]; rfl)
  have hpword : p.tree.HasWord := hasWord_of_isExpression hpsound (by rw [hpkind]; rfl)
  have hfirst := childNode?_of_memberAccess hpsound hpkind hmem hkind
  refine ⟨hword, (hwide p hp hpkind).tight hmem hword, ⟨p, .call, receiver⟩, ?_, hfloat, ?_,
    Node.span_pos hpsound hpword, ?_⟩
  · simp [chooseCall?, hparts, hreceiver, Node.parent?_of_mem_childNodes hmem, Option.filter_some,
      hpkind]
  · refine hp.findNode?_eq hpsound hpword fun a ha hakind => ?_
    exact hp.span_ne_of_wide hpword ha (hwide a (hp.of_mem_ofFrames ha) (hakind.trans hpkind))
  · rintro site hshape ⟨path, hpath⟩
    obtain ⟨r, hr, hiscall⟩ := exists_qualifiedCall hpath hpsound hpkind hfirst hkind
    refine ⟨r, ?_, .inl (by rw [hiscall.label, hpkind]), hiscall.sound, hiscall.hasWord⟩
    rw [Site.replacement?, hshape]
    exact hr

/-! ### Operands -/

/-- An operand is an expression, and the node around it has text of its own and is not a hole. -/
theorem of_isOperand {root : Tree} (hroot : root.Sound) {p : Node} (hp : p.Inside root)
    (hmem : n ∈ p.childNodes) (htakes : p.kind.takesExpression = true) :
    n.kind.isExpression = true ∧ p.Wide ∧ p.hole? = none := by
  have hpsound := hp.sound hroot
  have hkinds : p.kind = .addExpression ∨ p.kind = .parenthesizedExpression := by
    cases hk : p.kind
    all_goals rw [hk] at htakes
    all_goals first
      | exact .inl rfl
      | exact .inr rfl
      | cases htakes
  rcases hkinds with hk | hk
  · refine ⟨Node.isExpression_of_operand hpsound.shaped hk hmem,
      Node.wide_of_sound hpsound (by rw [hk]; rfl), ?_⟩
    rw [Node.hole?, if_neg (by rw [hk]; decide)]
  · obtain ⟨inner, hnodes, hinner⟩ := Node.childNodes_parenthesized hpsound.shaped hk
    rw [hnodes, List.mem_singleton] at hmem
    refine ⟨hmem ▸ hinner, Node.wide_of_sound hpsound (by rw [hk]; rfl), ?_⟩
    rw [Node.hole?, if_neg (by rw [hk]; decide)]

theorem isExpression_of_isOperand {root : Tree} (hroot : root.Sound)
    (hn : Rule.Formatting.IsOperand root n) : n.kind.isExpression = true := by
  obtain ⟨p, hp, hmem, htakes⟩ := hn
  exact (of_isOperand hroot hp hmem htakes).1

/-- An operand is found by its span, with or without its kind. -/
theorem sited_operand {root : Tree} (hroot : root.Sound) (hn : Rule.Formatting.IsOperand root n)
    (hfloat : b.isFloatingExpression n = true) :
    n.tree.HasWord ∧ n.Tight ∧ (chooseExpression n).Sited root b := by
  have hinside := hn.inside
  have hnsound := hinside.sound hroot
  obtain ⟨p, hp, hmem, htakes⟩ := hn
  obtain ⟨hexpression, hwide, hhole⟩ := of_isOperand hroot hp hmem htakes
  have hword := hasWord_of_isExpression hnsound hexpression
  have htight := hwide.tight hmem hword
  have hchoice : chooseExpression n = ⟨n, .operand, n⟩ := by
    simp [chooseExpression, Node.parent?_of_mem_childNodes hmem, Option.filter_some, hhole]
  refine ⟨hword, htight, ?_⟩
  rw [hchoice]
  refine ⟨hfloat, ?_, Node.span_pos hnsound hword, ?_⟩
  · exact hinside.findNode?_eq hnsound hword fun a ha _ => hinside.span_ne_of_tight hword ha htight
  · rintro site hshape ⟨path, hpath⟩
    have hmore : ∀ t ∈ ([] : List Tree), t.Sound := nofun
    obtain ⟨r, hr, hiscall⟩ := exists_wrap hpath hnsound hmore
    refine ⟨r, ?_, .inr ⟨hiscall.expression.expression, p.kind, ?_, htakes⟩, hiscall.sound,
      hiscall.hasWord⟩
    · rw [Site.replacement?, hshape]
      exact hr
    · obtain ⟨left, right, -, -, habove⟩ := Node.exists_split_childNodes hmem
      rw [habove]
      rfl

/-! ### Holes -/

/-- The expression of a hole is found by its span, and the hole by its span and kind. -/
theorem sited_hole {root : Tree} (hroot : root.Sound) (hn : Rule.Formatting.IsInHole root n)
    (hfloat : b.isFloatingExpression n = true) :
    n.Inside root ∧ n.kind.isExpression = true ∧ n.tree.HasWord ∧ n.Tight ∧
      (chooseExpression n).Sited root b := by
  obtain ⟨p, h, hp, hpkind, hh, hkind, hexpression⟩ := hn
  have hinside := hp.child hh
  have hsound := hinside.sound hroot
  -- the expression of the hole is a child of it
  obtain ⟨e, parts, hmem, he, hhole, hparts, -⟩ := exists_hole hsound.shaped hkind
  obtain rfl : e = n := by
    rw [hhole, Option.bind_some, hparts] at hexpression
    exact Option.some.inj hexpression
  have hword := hasWord_of_isExpression (hsound.child (Node.tree_mem_children hmem)) he
  have htight : e.Tight := (Node.wide_of_sound hsound (by rw [hkind]; rfl)).tight hmem hword
  have hhword : h.tree.HasWord := hasWord_node (Node.tree_mem_children hmem) hword
  have hhtight : h.Tight :=
    (Node.wide_of_sound (hp.sound hroot) (by rw [hpkind]; rfl)).tight hh hhword
  have hchoice : chooseExpression e = ⟨h, .hole, e⟩ := by
    simp [chooseExpression, Node.parent?_of_mem_childNodes hmem, Option.filter_some, hhole, hparts]
  refine ⟨hinside.child hmem, he, hword, htight, ?_⟩
  rw [hchoice]
  refine ⟨hfloat, ?_, Node.span_pos hsound hhword, ?_⟩
  · exact hinside.findNode?_eq hsound hhword fun a ha _ =>
      hinside.span_ne_of_tight hhword ha hhtight
  · rintro site hshape ⟨path, hpath⟩
    obtain ⟨r, hr, hishole⟩ := exists_qualifiedHole hpath hsound hkind
    refine ⟨r, ?_, .inl (by rw [hishole.label, hkind]), hishole.sound, hishole.hasWord⟩
    rw [Site.replacement?, hshape]
    exact hr

/-- An expression that is reported is found, and so is what is chosen for it. -/
theorem sited_expression {root : Tree} (hroot : root.Sound) (hfloat : b.isFloatingExpression n = true)
    (hplace : Rule.Formatting.IsOperand root n ∨ Rule.Formatting.IsInHole root n) :
    n.Inside root ∧ n.kind.isExpression = true ∧ n.tree.HasWord ∧ n.Tight ∧
      (chooseExpression n).Sited root b := by
  rcases hplace with hoperand | hhole
  · exact ⟨hoperand.inside, isExpression_of_isOperand hroot hoperand,
      sited_operand hroot hoperand hfloat⟩
  · exact sited_hole hroot hhole hfloat

/-! ### Findings -/

/-- The shape of what is chosen goes with the code: calls have a code of their own, and an operand is
an expression. -/
def Choice.GoesWith (code : String) (c : Choice) : Prop :=
  if code = Rule.Formatting.explicitDescriptor.code then c.shape = .call
  else c.shape = .hole ∨ c.shape = .operand ∧ c.target.kind.isExpression = true

theorem shape_of_chooseCall {c : Choice} (h : chooseCall? n = some c) : c.shape = .call := by
  obtain ⟨receiver, -, h⟩ := Option.bind_eq_some_iff.mp h
  obtain ⟨call, -, h⟩ := Option.bind_eq_some_iff.mp h
  obtain rfl := Option.some.inj h
  rfl

theorem shape_of_chooseExpression (hn : n.kind.isExpression = true) :
    (chooseExpression n).shape = .hole ∨
      (chooseExpression n).shape = .operand ∧ (chooseExpression n).target.kind.isExpression = true := by
  unfold chooseExpression
  dsimp only
  split
  · exact .inl rfl
  · exact .inr ⟨rfl, hn⟩

/-- For a finding something is chosen, and that is found. -/
theorem exists_choice (hs : s.Sound) (hd : d.Reports s host document b f)
    (hn : n.Inside document.root) (hf : f ∈ Rule.Formatting.check b n) :
    ∃ c, s.reportedNode? d = some f.node ∧
      (if d.code = Rule.Formatting.explicitDescriptor.code then chooseCall? f.node
        else some (chooseExpression f.node)) = some c ∧
      c.Sited document.root b ∧ c.GoesWith d.code := by
  have hroot := hs.root document hd.mem
  obtain ⟨hdescriptor, rfl, hkind, hcall⟩ | ⟨hdescriptor, hfloat, hplace⟩ :=
    Rule.Formatting.check_cases hn hf
  · obtain ⟨hword, htight, c, hchoice, hsited⟩ := sited_call hroot hn hkind hcall
    have hcode : d.code = Rule.Formatting.explicitDescriptor.code := by rw [hd.code, hdescriptor]
    refine ⟨c, hd.reportedNode?_eq hs hn hword htight, by rw [if_pos hcode, hchoice], hsited, ?_⟩
    rw [Choice.GoesWith, if_pos hcode]
    exact shape_of_chooseCall hchoice
  · -- the choice for an expression depends on the node around it
    have hcode : d.code ≠ Rule.Formatting.explicitDescriptor.code := by
      rw [hd.code, hdescriptor]
      decide
    obtain ⟨hinside, hexpression, hword, htight, hsited⟩ := sited_expression hroot hfloat hplace
    refine ⟨_, hd.reportedNode?_eq hs hinside hword htight, if_neg hcode, hsited, ?_⟩
    rw [Choice.GoesWith, if_neg hcode]
    exact shape_of_chooseExpression hexpression

/-- For a finding there is one fix. It replaces what was chosen by the tree for the site, and that fits. -/
theorem exists_fitting_fix (module : String) (hd : d.Reports s host document b f)
    {c : Choice} (hreported : s.reportedNode? d = some f.node)
    (hchoice : (if d.code = Rule.Formatting.explicitDescriptor.code then chooseCall? f.node
      else some (chooseExpression f.node)) = some c) (hsited : c.Sited document.root b) :
    ∃ kind fix r, (b.typeOf? c.typed).bind TypeInfo.floatKind? = some kind ∧
      (provider module).propose s host d = [fix] ∧
      (c.site document.id (calleeFor module kind)).replacement? c.target = some r ∧
      fix.changes s = .ok (.single document.id (.ofNode c.target r)) ∧
      (Edit.ofNode c.target r).Fits document.root := by
  obtain ⟨kind, hkind⟩ := exists_floatKind hsited.typed
  have hpropose := propose_of_choice module hd hreported hchoice hkind
  have hfor := c.isFor_site document.id module kind
  have hfind : s.find? (c.site document.id (calleeFor module kind)).document = some document :=
    hd.find?_eq
  obtain ⟨r, hr, hchanges, hfits⟩ := Site.exists_changes hfind hsited hfor
  exact ⟨kind, _, r, hkind, hpropose, hr, hchanges, hfits⟩

/-- For a finding there is one fix. It replaces what was chosen by the tree for the site. -/
theorem exists_fix (module : String) (hd : d.Reports s host document b f) {c : Choice}
    (hreported : s.reportedNode? d = some f.node)
    (hchoice : (if d.code = Rule.Formatting.explicitDescriptor.code then chooseCall? f.node
      else some (chooseExpression f.node)) = some c) (hsited : c.Sited document.root b) :
    ∃ kind fix r, (b.typeOf? c.typed).bind TypeInfo.floatKind? = some kind ∧
      (provider module).propose s host d = [fix] ∧
      (c.site document.id (calleeFor module kind)).replacement? c.target = some r ∧
      fix.changes s = .ok (.single document.id (.ofNode c.target r)) := by
  obtain ⟨kind, fix, r, hkind, hpropose, hr, hchanges, -⟩ :=
    exists_fitting_fix module hd hreported hchoice hsited
  exact ⟨kind, fix, r, hkind, hpropose, hr, hchanges⟩

/-- The fix that is proposed for a finding replaces what was chosen, and that is found. -/
theorem exists_proposal (module : String) (hs : s.Sound) (hd : d.Reports s host document b f)
    (hn : n.Inside document.root) (hf : f ∈ Rule.Formatting.check b n) :
    ∃ title, ∃ site : Site, ∃ c : Choice,
      (provider module).propose s host d = [⟨title, key, document.id, site.changes⟩] ∧
      site.document = document.id ∧ site.IsFor c ∧ c.Sited document.root b ∧ c.GoesWith d.code := by
  obtain ⟨c, hreported, hchoice, hsited, hgoes⟩ := exists_choice hs hd hn hf
  obtain ⟨kind, hkind⟩ := exists_floatKind hsited.typed
  exact ⟨_, _, c, propose_of_choice module hd hreported hchoice hkind, rfl,
    c.isFor_site document.id module kind, hsited, hgoes⟩

/-- Every finding of the rule for formatting has a fix that works. -/
theorem serves (module : String) (hs : s.Sound) (hd : d.Reports s host document b f)
    (hn : n.Inside document.root) (hf : f ∈ Rule.Formatting.check b n) :
    (provider module).Serves key s host d := by
  obtain ⟨title, site, c, hpropose, hdocument, hsite, hsited, -⟩ :=
    exists_proposal module hs hd hn hf
  have hfind : s.find? site.document = some document := hdocument ▸ hd.find?_eq
  obtain ⟨r, -, hchanges, hfits⟩ := Site.exists_changes hfind hsited hsite
  exact ⟨_, hpropose, rfl, _, hchanges, ChangeSet.fits_single hfind hfits⟩

end Repair.FormatCall

end SharpLint
