import SharpLint.Proofs.Binding.Host
import SharpLint.Proofs.Repair.Proposal
import SharpLint.Proofs.Rule.SupportNamespace
import SharpLint.Repair.Visibility

/-!
# Types made internal

A type declaration has modifiers behind its attributes, and a keyword behind them. So the modifiers
can be changed (`exists_internalChildren`), and the children keep their labels. Every declaration
that the host lists for the type is found and edited, so that a finding has a fix that works
(`serves`).
-/

namespace SharpLint.Repair.Visibility

open SharpLint.Tree

/-! ## Modifiers -/

/-- The token is the end of the text, or has text. -/
def IsSpelled (t : Token) : Prop := t.kind ≠ .endOfFile → t.text ≠ ""

theorem isSpelled_of_mem_tokensAmong {cs : List Tree} (h : ∀ c ∈ cs, c.Sound) {t : Token}
    (ht : t ∈ tokensAmong cs) : IsSpelled t := by
  obtain ⟨c, hc, hct⟩ := List.mem_filterMap.mp ht
  cases c with
  | token u =>
    obtain rfl := Option.some.inj hct
    exact (h _ hc).spelled u List.mem_cons_self
  | node k ds => cases hct

theorem isSpelled_of_mem_internalFirst {leading : List Trivia} {modifiers : List Token}
    (h : ∀ m ∈ modifiers, IsSpelled m) : ∀ m ∈ internalFirst leading modifiers, IsSpelled m := by
  intro m hm
  have hinternal : (Token.ofKind (.keyword .kwInternal)).text ≠ "" := by decide
  rcases List.mem_cons.mp hm with rfl | hm
  · exact fun _ => hinternal
  · have hm := (List.mem_filter.mp hm).1
    cases modifiers with
    | nil => cases hm
    | cons first others =>
      rw [List.forall_mem_cons] at h
      rcases List.mem_cons.mp hm with rfl | hm
      · exact h.1
      · exact h.2 m hm

/-- The children of a declaration can be given other modifiers, and keep their labels. -/
theorem exists_internalChildren {cs : List Tree} {header rest : List Label} {word : TokenKind}
    (hheader : IsHeader header) (hlabels : cs.map label = header ++ .token word :: rest)
    (hsound : ∀ c ∈ cs, c.Sound) :
    ∃ new, internalChildren? cs = some new ∧ new.map label = cs.map label ∧ ∀ c ∈ new, c.Sound := by
  obtain ⟨count, rfl⟩ := hheader
  induction count generalizing cs with
  | zero =>
    -- the modifiers come first, and behind them the keyword
    obtain ⟨list, others, rfl, hothers⟩ := exists_cons_of_labels_node hlabels
    obtain ⟨t, others, rfl, -⟩ := exists_cons_of_labels_token hothers
    simp only [List.forall_mem_cons] at hsound
    obtain ⟨hlist, ht, hothers⟩ := hsound
    cases hamong : tokensAmong list with
    | nil =>
      refine ⟨Build.modifierList (internalFirst t.leading []) :: .token { t with leading := [] } ::
        others, ?_, rfl, ?_⟩
      · simp only [internalChildren?, hamong, takeLeading?, Option.map_some]
      · simp only [List.forall_mem_cons]
        exact ⟨Build.sound_modifierList (isSpelled_of_mem_internalFirst nofun),
          .token (ht.spelled t List.mem_cons_self), hothers⟩
    | cons first modifiers =>
      have hspelled : ∀ m ∈ first :: modifiers, IsSpelled m := fun m hm =>
        isSpelled_of_mem_tokensAmong (fun c hc => hlist.child hc) (hamong ▸ hm)
      refine ⟨Build.modifierList (internalFirst first.leading (first :: modifiers)) :: .token t ::
        others, ?_, rfl, ?_⟩
      · simp only [internalChildren?, hamong]
      · simp only [List.forall_mem_cons]
        exact ⟨Build.sound_modifierList (isSpelled_of_mem_internalFirst hspelled), ht, hothers⟩
  | succ count ih =>
    -- attributes stay where they are
    obtain ⟨ds, others, rfl, hothers⟩ := exists_cons_of_labels_node hlabels
    rw [List.forall_mem_cons] at hsound
    obtain ⟨new, hnew, hkeep, hsounds⟩ := ih hsound.2 hothers
    refine ⟨.node .attributeList ds :: new, ?_, ?_, List.forall_mem_cons.mpr ⟨hsound.1, hsounds⟩⟩
    · simp only [internalChildren?, hnew, Option.map_some]
    · rw [List.map_cons, hkeep, List.map_cons]

/-- A type declaration that can take the place of one of its kind. -/
theorem exists_withInternal {n : Node} (hn : n.tree.Sound) (hkind : n.kind.isTypeDeclaration = true) :
    ∃ t, withInternal? n = some t ∧ t.Sound ∧ t.label = .node n.kind ∧ t.HasWord := by
  obtain ⟨header, word, between, rest, hheader, -, -, hlabels⟩ :=
    Node.isTypeDeclaration_form hn.shaped hkind
  obtain ⟨new, hnew, hkeep, hsound⟩ :=
    exists_internalChildren hheader hlabels fun c hc => hn.child hc
  have hshape : Shape n.kind (new.map label) := by
    rw [hkeep]
    exact hn.shaped.1
  have hnode : (Tree.node n.kind new).Sound := .node hshape hsound
  have hmem : Label.token .identifier ∈ new.map label := by
    rw [hkeep]
    exact Node.identifier_mem_labels hn.shaped hkind
  refine ⟨.node n.kind new, ?_, hnode, rfl, hnode.shaped.hasWord_of_mem hmem rfl⟩
  rw [withInternal?, hnew]
  rfl

/-! ## What the changed modifiers are -/

theorem laid_modifierList (modifiers : List Token) : (Build.modifierList modifiers).Laid := by
  have hrank : ∀ l ∈ (modifiers.map Tree.token).map label, l.rank = 0 := by
    intro l hl
    obtain ⟨c, hc, rfl⟩ := List.mem_map.mp hl
    obtain ⟨u, -, rfl⟩ := List.mem_map.mp hc
    rfl
  have hallows : NodeKind.modifierList.allows 0 0 = true := rfl
  refine ⟨layout_of_allows hallows (fun l hl => Nat.le_of_eq (hrank l hl)) (Nat.zero_le _),
    laidOf_iff.mpr fun c hc => ?_⟩
  · obtain ⟨u, -, rfl⟩ := List.mem_map.mp hc
    trivial

/-- No modifier for accessibility is left but `internal`. -/
theorem holdsToken_internalFirst (leading : List Trivia) (modifiers : List Token) :
    (Build.modifierList (internalFirst leading modifiers)).holdsToken (.keyword .kwPublic) =
      false := by
  rw [Bool.eq_false_iff]
  intro hholds
  obtain ⟨c, hc, hkind⟩ := List.any_eq_true.mp hholds
  obtain ⟨u, hu, rfl⟩ := List.mem_map.mp hc
  have hpublic : u.kind = .keyword .kwPublic := Label.token.inj (beq_iff_eq.mp hkind)
  rcases List.mem_cons.mp hu with rfl | hu
  · cases hpublic
  · have hother := (List.mem_filter.mp hu).2
    rw [isAccessibility, hpublic] at hother
    cases hother

theorem any_modifierList_eq_false {child : Tree}
    (h : ∀ list, child = .node .modifierList list → False) :
    child.label.nodeKind?.any (· == .modifierList) = false := by
  cases child with
  | token t => rfl
  | node k ds => exact beq_eq_false_iff_ne.mpr fun hk => h ds (by rw [hk])

/-- The changed children have the old labels, and no `public` among their modifiers. -/
structure Hides (cs new : List Tree) : Prop where
  labels : new.map label = cs.map label
  laid : LaidOf cs → LaidOf new
  hidden : (new.find? fun c => c.label.nodeKind?.any (· == .modifierList)).any
    (holdsToken (.keyword .kwPublic)) = false

theorem hides_internalChildren {cs new : List Tree} (h : internalChildren? cs = some new) :
    Hides cs new := by
  induction cs using internalChildren?.induct generalizing new with
  | case1 => cases h
  | case2 list rest hamong =>
    simp only [internalChildren?, hamong] at h
    obtain ⟨⟨leading, others⟩, htake, rfl⟩ := Option.map_eq_some_iff.mp h
    unfold takeLeading? at htake
    split at htake
    · cases htake
      exact ⟨rfl, fun hlaid => ⟨laid_modifierList _, trivial, hlaid.2.2⟩,
        holdsToken_internalFirst _ _⟩
    · cases htake
  | case3 list rest first others hamong =>
    simp only [internalChildren?, hamong] at h
    cases h
    exact ⟨rfl, fun hlaid => ⟨laid_modifierList _, hlaid.2⟩, holdsToken_internalFirst _ _⟩
  | case4 child rest hchild ih =>
    rw [internalChildren?.eq_3 _ _ hchild] at h
    obtain ⟨others, hothers, rfl⟩ := Option.map_eq_some_iff.mp h
    obtain ⟨hlabels, hlaid, hhidden⟩ := ih hothers
    refine ⟨congrArg (child.label :: ·) hlabels, fun h => ⟨h.1, hlaid h.2⟩, ?_⟩
    rwa [List.find?_cons, any_modifierList_eq_false hchild]

/-- A declaration made internal is laid if the declaration was, and is not public. -/
theorem hides_withInternal {n : Node} {t : Tree} (h : withInternal? n = some t) :
    t.label = .node n.kind ∧ (n.tree.Laid → t.Laid) ∧
      ∀ m : Node, m.tree = t → m.hasModifier .kwPublic = false := by
  obtain ⟨new, hnew, rfl⟩ := Option.map_eq_some_iff.mp h
  obtain ⟨hlabels, hlaid, hhidden⟩ := hides_internalChildren hnew
  refine ⟨rfl, fun hn => ⟨?_, hlaid hn.2⟩, fun m hm => ?_⟩
  · rw [hlabels]
    exact hn.1
  · obtain ⟨-, hchildren⟩ := Tree.node.inj hm
    rwa [Node.hasModifier_eq, hchildren]

/-! ## Declarations -/

variable {s : Snapshot}

/-- The edit makes a type declaration of the tree internal. -/
def MakesInternal (root : Tree) (e : Edit) : Prop :=
  ∃ n, (Node.root root).findNode? e.target e.kind = some n ∧ n.kind.isTypeDeclaration = true ∧
    withInternal? n = some e.replacement

theorem edit?_eq_some {r : DeclarationRef} {e : Edit} (h : edit? s r = some e) :
    ∃ d, s.find? r.document = some d ∧ MakesInternal d.root e ∧ e.target = r.span ∧
      e.kind = r.kind := by
  obtain ⟨d, hd, h⟩ := Option.bind_eq_some_iff.mp h
  obtain ⟨n, hn, h⟩ := Option.bind_eq_some_iff.mp h
  obtain ⟨t, ht, h⟩ := Option.bind_eq_some_iff.mp h
  obtain ⟨hfound, hkind⟩ := Option.filter_eq_some_iff.mp hn
  have htarget := Node.kind_span_of_findNode? hfound
  cases h
  refine ⟨d, hd, ⟨n, ?_, hkind, ht⟩, htarget.2, htarget.1⟩
  show d.rootNode.findNode? n.span n.kind = some n
  rwa [htarget.1, htarget.2]

/-- A declaration of the snapshot is found and can be edited. -/
theorem exists_edit (hs : s.Sound) {r : DeclarationRef} (hr : r.In s) :
    ∃ d e, s.find? r.document = some d ∧ edit? s r = some e ∧ e.Fits d.root := by
  obtain ⟨d, hd, n, hn, hkind, rfl⟩ := hr
  have hfind : s.find? d.id = some d := s.find?_eq hd (DocumentId.same_iff.mpr rfl)
  have hroot := hs.root d hd
  have hnsound := hn.sound hroot
  -- the node that is found may be another one with this kind and span
  obtain ⟨m, hm, hmInside, hmkind, hmspan⟩ :=
    hn.exists_findNode hnsound (Node.hasWord_typeDeclaration hnsound.shaped hkind)
  rw [← hmkind] at hkind
  have hmsound := hmInside.sound hroot
  obtain ⟨t, ht, hsound, hlabel, hword⟩ := exists_withInternal hmsound hkind
  have hfound : d.rootNode.findNode? n.span n.kind = some m := hm
  rw [← hmspan, ← hmkind] at hm
  refine ⟨d, .ofNode m t, hfind, ?_, Edit.fits_ofNode hm ?_ (.inl hlabel) hsound hword⟩
  · simp [edit?, hfind, hfound, Option.filter_some, hkind, ht]
  · exact Node.span_pos hmsound (Node.hasWord_typeDeclaration hmsound.shaped hkind)

/-- The changes are collected by adding one edit for each declaration. -/
theorem changes_rec (hs : s.Sound) {P : ChangeSet → Prop} {declarations : List DeclarationRef}
    (h : ∀ r ∈ declarations, r.In s) (hstart : P .empty)
    (hadd : ∀ c, P c → ∀ r d e, s.find? r.document = some d → edit? s r = some e →
      e.Fits d.root → P (c.add r.document e)) : P (changes declarations s) := by
  refine List.foldlRecOn declarations _ hstart fun c hc r hr => ?_
  obtain ⟨d, e, hfind, hedit, hfits⟩ := exists_edit hs (h r hr)
  rw [hedit]
  exact hadd c hc r d e hfind hedit hfits

/-- The edits of declarations of the snapshot fit. -/
theorem fits_changes (hs : s.Sound) {declarations : List DeclarationRef}
    (h : ∀ r ∈ declarations, r.In s) : (changes declarations s).Fits s :=
  changes_rec hs h (ChangeSet.fits_empty s) fun _ hc _ _ _ hfind _ hfits => hc.add hfind hfits

/-- All changes make declarations internal. -/
theorem meets_changes (hs : s.Sound) {declarations : List DeclarationRef}
    (h : ∀ r ∈ declarations, r.In s) : (changes declarations s).Meets MakesInternal s := by
  refine changes_rec hs h ChangeSet.meets_empty fun c hc r d e hfind hedit _ => hc.add hfind ?_
  obtain ⟨d', hfind', hmakes, -⟩ := edit?_eq_some hedit
  obtain rfl := Option.some.inj (hfind.symm.trans hfind')
  exact hmakes

/-- There is an edit for every declaration. -/
theorem has_changes (hs : s.Sound) {declarations : List DeclarationRef}
    (h : ∀ r ∈ declarations, r.In s) {r : DeclarationRef} (hr : r ∈ declarations) :
    ∃ e, (changes declarations s).Has r.document e ∧ e.target = r.span ∧ e.kind = r.kind := by
  obtain ⟨d, e, hfind, hedit, -⟩ := exists_edit hs (h r hr)
  obtain ⟨-, -, -, htarget, hkind⟩ := edit?_eq_some hedit
  refine ⟨e, ?_, htarget, hkind⟩
  obtain ⟨before, behind, rfl⟩ := List.append_of_mem hr
  unfold changes
  rw [List.foldl_append, List.foldl_cons, hedit]
  refine List.foldlRecOn behind _ (motive := (ChangeSet.Has · r.document e)) (ChangeSet.has_add _)
    fun c hc other _ => ?_
  split
  · exact hc.add _ _
  · exact hc

/-! ## Findings -/

variable {host : Host} {d : Diagnostic} {document : Document} {b : Bindings} {f : Finding} {n : Node}
  {start : String}

/-- A finding is about a type directly inside a namespace. -/
theorem check_cases {t : Tree} (hn : n.Inside t) (hf : f ∈ Rule.SupportNamespace.check start b n) :
    f.descriptor = Rule.SupportNamespace.descriptor ∧ f.node = n ∧
      n.kind.isTypeDeclaration = true ∧
      ∃ p : Node, p.Inside t ∧ n ∈ p.childNodes ∧ p.kind.isNamespaceDeclaration = true := by
  unfold Rule.SupportNamespace.check at hf
  split at hf
  · rename_i hexposed
    obtain rfl := List.mem_singleton.mp hf
    obtain ⟨hboth, -⟩ := Bool.and_eq_true_iff.mp hexposed
    obtain ⟨hinside, hkind⟩ := Bool.and_eq_true_iff.mp hboth
    obtain ⟨p, hp, -⟩ := (Option.any_eq_true _ _).mp hinside
    obtain ⟨hp, hspace⟩ := Option.filter_eq_some_iff.mp hp
    exact ⟨rfl, rfl, hkind, p, (hn.of_parent? hp).1, (hn.of_parent? hp).2, hspace⟩
  · cases hf

/-- The node of a finding is found by its span. -/
theorem coveringNode_of_check {t : Tree} (ht : t.Sound) (hn : n.Inside t)
    (hf : f ∈ Rule.SupportNamespace.check start b n) :
    n.tree.HasWord ∧ n.Tight ∧ (Node.root t).coveringNode n.span = n := by
  obtain ⟨-, -, hkind, p, hp, hmem, hspace⟩ := check_cases hn hf
  have hsound := hn.sound ht
  have hword := Node.hasWord_typeDeclaration hsound.shaped hkind
  have htight := Node.tight_of_isNamespaceDeclaration (hp.sound ht) hspace hmem hkind
  exact ⟨hword, htight, hn.coveringNode_eq hsound hword htight⟩

/-- The fix that is proposed for a finding changes the declarations of its type, or the reported one
alone when the host lists none. -/
theorem exists_proposal (hs : s.Sound) (hhost : host.Knows s) (hd : d.Reports s host document b f)
    (hn : n.Inside document.root) (hf : f ∈ Rule.SupportNamespace.check start b n) :
    ∃ title declarations, provider.propose s host d =
        [⟨title, key, document.id, fun s => .ok (changes declarations s)⟩] ∧
      (∀ r ∈ declarations, r.In s) ∧
      (declarations = [⟨document.id, n.span, n.kind⟩] ∨
        ∃ symbol, b.declaredSymbol? n = some symbol ∧
          declarations = host.declarationsOf symbol) := by
  obtain ⟨hword, htight, -⟩ := coveringNode_of_check (hs.root document hd.mem) hn hf
  obtain ⟨-, rfl, hkind, -⟩ := check_cases hn hf
  have hsound := hn.sound (hs.root document hd.mem)
  have hreported := hd.reportedNode?_eq hs hn hword htight
  obtain ⟨name, hname⟩ := Node.exists_typeName hsound.shaped hkind
  obtain ⟨symbol, hsymbol⟩ := hhost.declared document hd.mem b hd.bindings f.node hn hkind
  have hself : DeclarationRef.In s ⟨document.id, f.node.span, f.node.kind⟩ :=
    ⟨document, hd.mem, f.node, hn, hkind, rfl⟩
  refine ⟨"Make " ++ name.token.text ++ " internal", ?_⟩
  have hlist : ∀ declarations, propose? s host d = some ⟨"Make " ++ name.token.text ++ " internal",
      key, document.id, fun s => .ok (changes declarations s)⟩ → provider.propose s host d =
      [⟨_, key, document.id, fun s => .ok (changes declarations s)⟩] :=
    fun _ hpropose => congrArg Option.toList hpropose
  cases hlisted : host.declarationsOf symbol with
  | nil =>
    refine ⟨[⟨document.id, f.node.span, f.node.kind⟩], hlist _ ?_, List.forall_mem_singleton.mpr hself,
      .inl rfl⟩
    simp only [propose?, hreported, hd.place, hd.bindings, hkind, hname, hsymbol, hlisted,
      Option.bind_eq_bind, Option.bind_some, Option.pure_def, if_true]
  | cons first others =>
    refine ⟨first :: others, hlist _ ?_, fun r hr => hhost.declarations symbol r (hlisted ▸ hr),
      .inr ⟨symbol, hsymbol, hlisted.symm⟩⟩
    simp only [propose?, hreported, hd.place, hd.bindings, hkind, hname, hsymbol, hlisted,
      Option.bind_eq_bind, Option.bind_some, Option.pure_def, if_true]

/-- Every finding of the rule for support namespaces has a fix that works. -/
theorem serves (hs : s.Sound) (hhost : host.Knows s) (hd : d.Reports s host document b f)
    (hn : n.Inside document.root) (hf : f ∈ Rule.SupportNamespace.check start b n) :
    provider.Serves key s host d := by
  obtain ⟨title, declarations, hpropose, hin, -⟩ := exists_proposal hs hhost hd hn hf
  exact ⟨_, hpropose, rfl, _, rfl, fits_changes hs hin⟩

end SharpLint.Repair.Visibility
