import SharpLint.Proofs.Repair.Visibility

/-!
# Every reported type is made internal

Edits make some type declarations of a tree internal, all reported ones among them. When overlapping
edits are dropped, no edit of a reported declaration is: declarations around a reported one are not
there, and those inside it come later (`apart_of_precedes`). The loop replaces the declarations from
right to left. All along, every reported node of the tree is the target of an edit still to come
(`replaceTargets_hides`).
-/

namespace SharpLint

open SharpLint.Tree Node

/-! ## Accepted edits -/

/-- An edit is accepted if it is apart from the ones before it. -/
theorem mem_of_acceptEdits {document : DocumentId} {policy : OverlapPolicy} {P : Located → Prop}
    {accepted located out : List Located}
    (h : acceptEdits document policy accepted located = .ok out)
    (hpairs : located.Pairwise fun a b => P b → a.Apart b)
    (haccepted : ∀ a ∈ accepted, ∀ b ∈ located, P b → a.Apart b) :
    (∀ a ∈ accepted, a ∈ out) ∧ ∀ l ∈ located, P l → l ∈ out := by
  induction located generalizing accepted with
  | nil =>
    obtain rfl := Except.ok.inj h
    exact ⟨fun _ ha => ha, nofun⟩
  | cons l located ih =>
    rw [List.pairwise_cons] at hpairs
    have hbefore : ∀ a ∈ accepted, ∀ b ∈ located, P b → a.Apart b := fun a ha b hb =>
      haccepted a ha b (List.mem_cons_of_mem l hb)
    rw [acceptEdits] at h
    cases hfind : accepted.find? (·.full.overlaps l.full) with
    | none =>
      rw [hfind] at h
      obtain ⟨hkept, hlater⟩ := ih h hpairs.2 fun a ha b hb => by
        rcases List.mem_append.mp ha with ha | ha
        · exact hbefore a ha b hb
        · rw [List.mem_singleton.mp ha]
          exact hpairs.1 b hb
      refine ⟨fun a ha => hkept a (List.mem_append_left _ ha), List.forall_mem_cons.mpr ⟨fun _ => ?_,
        hlater⟩⟩
      exact hkept l (List.mem_append_right _ (List.mem_singleton_self l))
    | some previous =>
      rw [hfind] at h
      cases policy with
      | reject => cases h
      | keepFirst =>
        obtain ⟨hkept, hlater⟩ := ih h hpairs.2 hbefore
        refine ⟨hkept, List.forall_mem_cons.mpr ⟨fun hl => ?_, hlater⟩⟩
        -- what is accepted already would overlap an edit that is to be kept
        have hapart := haccepted previous (List.mem_of_find?_eq_some hfind) l List.mem_cons_self hl
        have hoverlaps := List.find?_some hfind
        unfold Located.Apart at hapart
        rw [hapart] at hoverlaps
        cases hoverlaps

namespace Repair.Visibility

/-! ## Declarations beside each other -/

variable {start : String}

theorem widthOf_pos {cs : List Tree} {u : Token} (hu : .token u ∈ cs) (htext : u.text ≠ "") :
    0 < widthOf cs := by
  have hpos := textWidths_pos (mem_tokensOf.mpr ⟨_, hu, List.mem_singleton_self u⟩) htext
  have hle := textWidths_le (tokensOf cs)
  rw [widthOf_eq_fullWidths]
  omega

/-- A declaration is longer than its child nodes, since it has a name. -/
theorem width_lt_of_mem_childNodes {n m : Node} (hn : n.tree.Sound)
    (hkind : n.kind.isTypeDeclaration = true) (hm : m ∈ n.childNodes) :
    m.tree.width < n.tree.width := by
  obtain ⟨c, hc, hlabel⟩ := List.mem_map.mp (identifier_mem_labels hn.shaped hkind)
  obtain ⟨u, rfl⟩ := exists_of_label_token hlabel
  have htext : u.text ≠ "" := by
    refine (hn.child hc).spelled u (List.mem_singleton_self u) ?_
    rw [Label.token.inj hlabel]
    exact nofun
  obtain ⟨left, right, hchildren, -⟩ := exists_split_childNodes hm
  have hwidth : n.tree.width = widthOf left + (m.tree.width + widthOf right) := by
    rw [Node.tree, hchildren, width, widthOf_append, widthOf]
  rw [hchildren, List.mem_append, List.mem_cons] at hc
  rcases hc with hc | hc | hc
  · have hpos := widthOf_pos hc htext
    omega
  · cases hc
  · have hpos := widthOf_pos hc htext
    omega

/-- What is found for a reported node is the node. -/
theorem findNode?_of_isExposed {t : Tree} {m : Node} (ht : t.Sound) (hlaid : t.Laid)
    (hm : m.Inside t) (hexposed : Rule.SupportNamespace.isExposed start m = true) :
    m.kind.isTypeDeclaration = true ∧ (Node.root t).findNode? m.span m.kind = some m := by
  obtain ⟨hboth, -⟩ := Bool.and_eq_true_iff.mp hexposed
  obtain ⟨-, hkind⟩ := Bool.and_eq_true_iff.mp hboth
  exact ⟨hkind, hm.findNode?_self hlaid ht (hasWord_typeDeclaration (hm.sound ht).shaped hkind)⟩

theorem width_pos {n : Node} (hn : n.tree.Sound) (hkind : n.kind.isTypeDeclaration = true) :
    0 < n.tree.width := by
  have hspan := span_pos hn (hasWord_typeDeclaration hn.shaped hkind)
  have hfull := (Span.contains_iff _ _).mp n.contains_span
  simp only [fullSpan, Span.ofLength] at hfull
  omega

/-- A declaration inside another one is shorter. -/
theorem width_lt_of_mem_descendants {n m : Node} (hn : n.tree.Sound)
    (hkind : n.kind.isTypeDeclaration = true) (hm : m ∈ n.descendants) (hne : m ≠ n) :
    m.tree.width < n.tree.width := by
  rw [descendants_eq_cons, List.mem_cons] at hm
  obtain ⟨child, hchild, hm⟩ := List.mem_flatMap.mp (hm.resolve_left hne)
  have hwithin := within_of_mem_descendants hm
  have hshorter := width_lt_of_mem_childNodes hn hkind hchild
  omega

/-- The edit is for the node. -/
def Targets (e : Edit) (m : Node) : Prop := e.target = m.span ∧ e.kind = m.kind

theorem targets_of_findNode? {t : Tree} {e : Edit} {n : Node}
    (h : (Node.root t).findNode? e.target e.kind = some n) : Targets e n := by
  obtain ⟨hkind, hspan⟩ := kind_span_of_findNode? h
  exact ⟨hspan.symm, hkind.symm⟩

/-- There is one edit for each declaration. -/
theorem MakesInternal.eq_of_targets {t : Tree} {e f : Edit} {m : Node} (he : MakesInternal t e)
    (hf : MakesInternal t f) (hem : Targets e m) (hfm : Targets f m) : e = f := by
  obtain ⟨n, hn, -, hnew⟩ := he
  obtain ⟨n', hn', -, hnew'⟩ := hf
  rw [hem.1, hem.2] at hn
  rw [hfm.1, hfm.2, hn, Option.some.injEq] at hn'
  rw [← hn', hnew, Option.some.injEq] at hnew'
  cases e
  cases f
  obtain ⟨rfl, rfl⟩ := hem
  obtain ⟨htarget, hkind⟩ := hfm
  simp only at htarget hkind hnew'
  rw [htarget, hkind, hnew']

/-- An edit that does not come behind that of a reported declaration shares no text with it. -/
theorem apart_of_precedes {t : Tree} (ht : t.Sound) (hlaid : t.Laid) {a b : Located}
    (hab : a.edit ≠ b.edit) (hprecedes : a.Precedes b) (ha : a.Holds (.root t))
    (hb : b.Holds (.root t)) (hmakesa : MakesInternal t a.edit) (hmakesb : MakesInternal t b.edit)
    {m : Node} (hm : m.Inside t) (hexposed : Rule.SupportNamespace.isExposed start m = true)
    (htargets : Targets b.edit m) : a.Apart b := by
  obtain ⟨hkind, hfound⟩ := findNode?_of_isExposed ht hlaid hm hexposed
  obtain ⟨n, hn, hafull⟩ := ha
  obtain ⟨m', hm', hbfull⟩ := hb
  rw [htargets.1, htargets.2, hfound] at hm'
  obtain rfl := Option.some.inj hm'
  have hne : n ≠ m := by
    rintro rfl
    exact hab (hmakesa.eq_of_targets hmakesb (targets_of_findNode? hn) htargets)
  obtain ⟨n', hn', hnkind, -⟩ := hmakesa
  obtain rfl := Option.some.inj (hn.symm.trans hn')
  have hinside : n.Inside t := .of_findNode? hn
  have hsound := hinside.sound ht
  have hwidth := width_pos (hm.sound ht) hkind
  have hwidth' := width_pos hsound hnkind
  obtain hbelow | hbelow | hapart := hinside.apart_or_below hm
  · -- no reported declaration is inside another declaration
    have hrank := NodeKind.rank_of_isTypeDeclaration hnkind
    rw [descendants_eq] at hbelow
    exact absurd (Rule.SupportNamespace.eq_of_isExposed (hinside.laid hlaid) (Nat.le_of_eq hrank)
      hbelow hexposed).symm hne
  · -- a declaration inside the reported one comes later
    have hwithin := within_of_mem_descendants hbelow
    have hshorter := width_lt_of_mem_descendants (hm.sound ht) hkind hbelow hne
    unfold Located.Precedes at hprecedes
    rw [hafull, hbfull] at hprecedes
    simp only [fullSpan, Span.ofLength] at hprecedes
    omega
  · have hastart : a.full.start < a.full.stop := by
      simp only [hafull, fullSpan, Span.ofLength]
      omega
    have hbstart : b.full.start < b.full.stop := by
      simp only [hbfull, fullSpan, Span.ofLength]
      omega
    rw [Located.apart_iff hastart hbstart, hafull, hbfull]
    exact hapart

/-! ## One replacement after the other -/

theorem MakesInternal.fits {t : Tree} {e : Edit} (h : MakesInternal t e) (ht : t.Sound) :
    e.Fits t := by
  obtain ⟨n, hn, hkind, hnew⟩ := h
  have hsound := (Inside.of_findNode? hn).sound ht
  obtain ⟨r, hr, hrsound, hlabel, hword⟩ := exists_withInternal hsound hkind
  rw [hnew, Option.some.injEq] at hr
  rw [← hr] at hrsound hlabel hword
  refine ⟨?_, ⟨n, hn, .inl hlabel⟩, hrsound, hword⟩
  rw [(targets_of_findNode? hn).1]
  exact span_pos hsound (hasWord_typeDeclaration hsound.shaped hkind)

/-- The edit makes the same declaration internal when it is found in the same place. -/
theorem MakesInternal.of_place {t t' : Tree} {e : Edit} {m m' : Node} (h : MakesInternal t e)
    (hm : (Node.root t).findNode? e.target e.kind = some m)
    (hm' : (Node.root t').findNode? e.target e.kind = some m') (hplace : m'.place = m.place) :
    MakesInternal t' e := by
  obtain ⟨n, hn, hkind, hnew⟩ := h
  obtain rfl := Option.some.inj (hm.symm.trans hn)
  simp only [place, Prod.mk.injEq] at hplace
  refine ⟨m', hm', ?_, ?_⟩
  · rwa [hplace.1]
  · rwa [withInternal?, hplace.1, hplace.2.1]

section

variable {t r : Tree} {e : Edit} {n : Node}

/-- Making a declaration internal leaves a tree that is sound and laid. -/
theorem MakesInternal.replaceWith (h : MakesInternal t e) (ht : t.Sound) (hlaid : t.Laid)
    (hn : (Node.root t).findNode? e.target e.kind = some n) :
    (n.replaceWith e.replacement).Sound ∧ (n.replaceWith e.replacement).Laid ∧
      (n.replaceWith e.replacement).label = .node (Node.root t).kind := by
  have hfits := h.fits ht
  obtain ⟨n', hn', -, hnew⟩ := h
  obtain rfl := Option.some.inj (hn.symm.trans hn')
  obtain ⟨hlabel, hnewlaid, -⟩ := hides_withInternal hnew
  have hreplaced := replaced_of_findNode? e.replacement hn
  obtain ⟨hlaid', hlabel'⟩ := hreplaced.laid (hnewlaid ((Inside.of_findNode? hn).laid hlaid)) hlabel
    ((Inside.root t).laid hlaid)
  exact ⟨hreplaced.sound hfits.sound (sound_tree_root ht) (.inl hlabel), hlaid', hlabel'⟩

/-- What is reported when a declaration was made internal was reported before, and it was not the
declaration. -/
theorem MakesInternal.exists_exposed (h : MakesInternal t e) (ht : t.Sound) (hlaid : t.Laid)
    (hn : (Node.root t).findNode? e.target e.kind = some n) {m' : Node}
    (hm' : m'.Inside (n.replaceWith e.replacement))
    (hexposed : Rule.SupportNamespace.isExposed start m' = true) :
    ∃ m : Node, m.Inside t ∧ Rule.SupportNamespace.Stems start n m' m := by
  obtain ⟨-, -, hnode⟩ := h.replaceWith ht hlaid hn
  obtain ⟨n', hn', hkind, hnew⟩ := h
  obtain rfl := Option.some.inj (hn.symm.trans hn')
  obtain ⟨hlabel, hnewlaid, hpublic⟩ := hides_withInternal hnew
  have hinside := Inside.of_findNode? hn
  have hreplaced := replaced_of_findNode? e.replacement hn
  obtain ⟨cs, hcs⟩ := exists_of_label_node hnode
  rw [hcs] at hm' hreplaced
  have hdescendant := mem_descendants_root.mpr hm'
  rw [descendants_eq] at hdescendant
  obtain ⟨m, hm, hfound⟩ := Rule.SupportNamespace.exists_exposed hreplaced
    ((Inside.root t).laid hlaid) (hnewlaid (hinside.laid hlaid)) hlabel hkind
    (width_pos (hinside.sound ht) hkind) hpublic rfl hdescendant hexposed
  refine ⟨m, mem_descendants_root.mp ?_, hfound⟩
  rwa [descendants_eq, above_root, offset_root]

end

/-- After all edits nothing is reported any more, if there was an edit for all that was. -/
theorem replaceTargets_hides (document : DocumentId) (edits : List Located) {root new : Tree}
    (hroot : root.Sound) (hlaid : root.Laid) (hholds : ∀ l ∈ edits, l.Holds (.root root))
    (hmakes : ∀ l ∈ edits, MakesInternal root l.edit)
    (hsorted : edits.Pairwise fun a b => b.full.stop ≤ a.full.start)
    (hcover : ∀ m : Node, m.Inside root → Rule.SupportNamespace.isExposed start m = true →
      ∃ l ∈ edits, Targets l.edit m)
    (h : replaceTargets document root (edits.map Located.edit) = .ok new) :
    ∀ m : Node, m.Inside new → Rule.SupportNamespace.isExposed start m = false := by
  induction edits generalizing root with
  | nil =>
    obtain rfl := Except.ok.inj h
    intro m hm
    rw [Bool.eq_false_iff]
    intro hexposed
    obtain ⟨l, hl, -⟩ := hcover m hm hexposed
    cases hl
  | cons l edits ih =>
    rw [List.pairwise_cons] at hsorted
    rw [List.forall_mem_cons] at hholds hmakes
    obtain ⟨n, hn, hfull⟩ := hholds.1
    obtain ⟨hroot', hlaid', -⟩ := hmakes.1.replaceWith hroot hlaid hn
    have hfits := hmakes.1.fits hroot
    -- the targets still to come stand in front of `n` and are found again
    have hstay : ∀ k ∈ edits, k.Holds (.root (n.replaceWith l.edit.replacement)) ∧
        MakesInternal (n.replaceWith l.edit.replacement) k.edit := by
      intro k hk
      obtain ⟨m, hm, hkfull⟩ := hholds.2 k hk
      have hle := hsorted.1 k hk
      rw [hfull, hkfull] at hle
      obtain ⟨m', hm', hplace⟩ := findNode?_replaceWith hn hm hfits.target
        ((hmakes.2 k hk).fits hroot).target hle hfits.hasText.2
      exact ⟨⟨m', hm', by rw [hkfull, fullSpan_eq_of_place hplace]⟩,
        (hmakes.2 k hk).of_place hm hm' hplace⟩
    rw [List.map_cons, replaceTargets, findTarget, hn] at h
    refine ih hroot' hlaid' (fun k hk => (hstay k hk).1) (fun k hk => (hstay k hk).2) hsorted.2
      (fun m' hm' hexposed => ?_) h
    -- what is reported now was reported before and has an edit, which is not the one just made
    obtain ⟨m, hm, hmexposed, hne, hfront⟩ := hmakes.1.exists_exposed hroot hlaid hn hm' hexposed
    obtain ⟨-, hfound⟩ := findNode?_of_isExposed hroot hlaid hm hmexposed
    obtain ⟨k, hk, htarget, hkind⟩ := hcover m hm hmexposed
    rw [← htarget, ← hkind] at hfound
    rcases List.mem_cons.mp hk with rfl | hk
    · exact absurd (Option.some.inj (hfound.symm.trans hn)) hne
    · obtain ⟨m₀, hm₀, hkfull⟩ := hholds.2 k hk
      obtain rfl := Option.some.inj (hfound.symm.trans hm₀)
      have hle := hsorted.1 k hk
      rw [hfull, hkfull] at hle
      obtain ⟨hsamekind, hsamespan⟩ := hfront hle
      exact ⟨k, hk, by rw [hsamespan, htarget], by rw [hsamekind, hkind]⟩

/-- Edits that make declarations internal, all reported ones among them, leave nothing to report. -/
theorem applyEdits_hides {document : DocumentId} {policy : OverlapPolicy} {root new : Tree}
    {edits : List Edit} (hroot : root.Sound) (hlaid : root.Laid)
    (hmakes : ∀ e ∈ edits, MakesInternal root e)
    (hcover : ∀ m : Node, m.Inside root → Rule.SupportNamespace.isExposed start m = true →
      ∃ e ∈ edits, Targets e m)
    (h : applyEdits document root edits policy = .ok new) :
    ∀ m : Node, m.Inside new → Rule.SupportNamespace.isExposed start m = false := by
  obtain ⟨located, hloc, h⟩ := bind_eq_ok h
  obtain ⟨accepted, haccepted, h⟩ := bind_eq_ok h
  obtain ⟨hmap, hall⟩ := locateEdits_ok hloc
  have hperm := stableSort_perm Located.order located
  have hedit : ∀ l ∈ located, MakesInternal root l.edit := fun l hl =>
    hmakes _ ((mem_distinctEdits edits _).mp (hmap ▸ List.mem_map_of_mem hl))
  have hdistinct : (stableSort Located.order located).Pairwise fun a b => a.edit ≠ b.edit := by
    have hnodup := nodup_distinctEdits edits
    rw [← hmap] at hnodup
    exact List.pairwise_map.mp ((hperm.map Located.edit).nodup_iff.mpr hnodup)
  have hpairs : (stableSort Located.order located).Pairwise fun a b =>
      (∃ m : Node, m.Inside root ∧ Rule.SupportNamespace.isExposed start m = true ∧
        Targets b.edit m) → a.Apart b := by
    refine ((Located.pairwise_precedes located).and hdistinct).imp_of_mem ?_
    rintro a b ha hb ⟨hprecedes, hne⟩ ⟨m, hm, hexposed, htargets⟩
    have ha := hperm.mem_iff.mp ha
    have hb := hperm.mem_iff.mp hb
    exact apart_of_precedes hroot hlaid hne hprecedes (hall a ha) (hall b hb) (hedit a ha)
      (hedit b hb) hm hexposed htargets
  obtain ⟨-, hkept⟩ := mem_of_acceptEdits haccepted hpairs nofun
  obtain ⟨hmem, hsorted⟩ := pairwise_stop_le_of_acceptEdits
    (fun l hl => (hall l hl).start_lt ((hedit l hl).fits hroot).target) haccepted
  refine replaceTargets_hides document accepted.reverse hroot hlaid
    (fun l hl => hall l (hmem l (List.mem_reverse.mp hl)))
    (fun l hl => hedit l (hmem l (List.mem_reverse.mp hl))) (List.pairwise_reverse.mpr hsorted)
    (fun m hm hexposed => ?_) h
  obtain ⟨e, he, htargets⟩ := hcover m hm hexposed
  rw [← mem_distinctEdits, ← hmap] at he
  obtain ⟨l, hl, rfl⟩ := List.mem_map.mp he
  exact ⟨l, List.mem_reverse.mpr (hkept l (hperm.mem_iff.mpr hl) ⟨m, hm, hexposed, htargets⟩),
    htargets⟩

end Repair.Visibility

end SharpLint
