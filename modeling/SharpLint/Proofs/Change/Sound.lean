import SharpLint.Proofs.Change.Edit
import SharpLint.Proofs.Tree.Build
import SharpLint.Proofs.Tree.Lookup

/-!
# Edits keep trees sound

An edit fits a tree when its target is found, its replacement is sound, and the node at the target
may have the label of the replacement: the same label, or that of another expression where the node
is an operand. Edits that fit are applied and leave a sound tree, unless two of them overlap and
overlaps are refused (`applyEdits_sound`).
-/

namespace SharpLint

open SharpLint.Tree Node

/-! ## One replacement -/

/-- The kinds whose child may be any expression. -/
def NodeKind.takesExpression : NodeKind → Bool
  | .addExpression | .parenthesizedExpression => true
  | _ => false

/-- A tree with this label may take the place of the node. -/
def Node.Accepts (n : Node) (l : Label) : Prop :=
  l = .node n.kind ∨
    (∃ k, l = .node k ∧ k.isExpression = true) ∧
      ∃ p, (n.above.map Frame.kind).head? = some p ∧ p.takesExpression = true

/-- Behind tokens the first node is the one that ends the list. -/
theorem eq_of_append_node {as bs ts : List Label} {x f : NodeKind}
    (h : as ++ .node x :: bs = ts ++ [.node f]) (hts : ∀ l ∈ ts, l.nodeKind? = none) :
    as = ts ∧ bs = [] := by
  rcases List.append_eq_append_iff.mp h with ⟨a, rfl, ha⟩ | ⟨c, rfl, hc⟩
  · cases a with
    | nil => exact ⟨(List.append_nil as).symm, (List.cons.inj ha).2⟩
    | cons l a =>
      obtain ⟨rfl, -⟩ := List.cons.inj ha
      cases hts _ (List.mem_append_right as List.mem_cons_self)
  · cases c with
    | nil => exact ⟨List.append_nil ts, (List.cons.inj hc).2.symm⟩
    | cons l c =>
      have hlength := congrArg List.length hc
      simp at hlength

theorem isOperation_replace {as bs : List Label} {x y : NodeKind}
    (h : IsOperation (as ++ .node x :: bs)) (hy : y.isExpression = true) :
    IsOperation (as ++ .node y :: bs) := by
  obtain ⟨e, sign, signs, f, he, hf, hls⟩ := h
  cases as with
  | nil =>
    obtain ⟨-, rfl⟩ := List.cons.inj hls
    exact ⟨y, sign, signs, f, hy, hf, rfl⟩
  | cons a as =>
    obtain ⟨rfl, hrest⟩ := List.cons.inj hls
    have hsigns : ∀ l ∈ Label.token sign :: signs.map .token, l.nodeKind? = none := by
      intro l hl
      rcases List.mem_cons.mp hl with rfl | hl
      · rfl
      · obtain ⟨k, -, rfl⟩ := List.mem_map.mp hl
        rfl
    obtain ⟨rfl, rfl⟩ := eq_of_append_node hrest hsigns
    exact ⟨e, sign, signs, y, he, hy, rfl⟩

/-- A parent keeps its shape when a child is replaced by one that it accepts. -/
theorem shape_replace {k x : NodeKind} {as bs : List Label} {l : Label}
    (h : Shape k (as ++ .node x :: bs))
    (hl : l = .node x ∨ (∃ y, l = .node y ∧ y.isExpression = true) ∧ k.takesExpression = true) :
    Shape k (as ++ l :: bs) := by
  obtain rfl | ⟨⟨y, rfl, hy⟩, hk⟩ := hl
  · exact h
  have hsolid : ∃ l ∈ as ++ Label.node y :: bs, l.isSolid = true :=
    ⟨.node y, by simp, Label.isSolid_of_isExpression hy⟩
  refine ⟨?_, fun _ => hsolid⟩
  cases hkind : k
  case addExpression =>
    rw [hkind] at h
    exact ⟨fun _ => isOperation_replace (h.form.1 rfl) hy, nofun⟩
  case parenthesizedExpression =>
    rw [hkind] at h
    obtain ⟨e, he, hls⟩ := h.form
    match as, hls with
    | [_], hls =>
      obtain ⟨rfl, hrest⟩ := List.cons.inj hls
      obtain ⟨-, rfl⟩ := List.cons.inj hrest
      exact ⟨y, hy, rfl⟩
    | [_, _], hls => cases (List.cons.inj (List.cons.inj (List.cons.inj hls).2).2).1
    | _ :: _ :: _ :: _, hls =>
      have hlength := congrArg List.length hls
      simp at hlength
  all_goals
    rw [hkind] at hk
    cases hk

/-- The new tree is shaped, and has the label of the old one unless the whole tree was replaced. -/
theorem Replaced.shaped {r t t' : Tree} {above : List Frame} {offset : Nat} {n : Node}
    (h : Replaced r above offset t n t') (hr : r.Shaped) (ht : t.Shaped) (hn : n.Accepts r.label) :
    t'.Shaped ∧ (t'.label = t.label ∨ t' = r ∧ t = n.tree ∧ n.above = above) := by
  induction h with
  | here k cs => exact ⟨hr, .inr ⟨rfl, rfl, rfl⟩⟩
  | @child above offset k left c c' right n h ih =>
    obtain ⟨hshape, hchildren⟩ := ht
    rw [shapedOf_append] at hchildren
    obtain ⟨hc', hlabel⟩ := ih hchildren.2.1 hn
    refine ⟨⟨?_, shapedOf_append.mpr ⟨hchildren.1, hc', hchildren.2.2⟩⟩, .inl rfl⟩
    rw [List.map_append, List.map_cons] at hshape ⊢
    obtain hlabel | ⟨rfl, rfl, habove⟩ := hlabel
    · rwa [hlabel]
    · refine shape_replace hshape (hn.imp_right fun hexpression => ⟨hexpression.1, ?_⟩)
      obtain ⟨p, hp, htakes⟩ := hexpression.2
      rw [habove] at hp
      obtain rfl := Option.some.inj hp
      exact htakes

theorem Replaced.mem_tokens {r t t' : Tree} {above : List Frame} {offset : Nat} {n : Node}
    (h : Replaced r above offset t n t') {u : Token} (hu : u ∈ t'.tokens) :
    u ∈ t.tokens ∨ u ∈ r.tokens := by
  induction h with
  | here k cs => exact .inr hu
  | @child above offset k left c c' right n h ih =>
    simp only [Tree.tokens, tokensOf_append, tokensOf, List.mem_append] at hu ⊢
    rcases hu with hu | hu | hu
    · exact .inl (.inl hu)
    · exact (ih hu).imp_left fun hu => .inr (.inl hu)
    · exact .inl (.inr (.inr hu))

theorem Replaced.sound {r t t' : Tree} {above : List Frame} {offset : Nat} {n : Node}
    (h : Replaced r above offset t n t') (hr : r.Sound) (ht : t.Sound) (hn : n.Accepts r.label) :
    t'.Sound := by
  refine ⟨(h.shaped hr.shaped ht.shaped hn).1, fun u hu => ?_⟩
  rcases h.mem_tokens hu with hu | hu
  · exact ht.spelled u hu
  · exact hr.spelled u hu

theorem sound_tree_root {t : Tree} (h : t.Sound) : (Node.root t).tree.Sound :=
  (Inside.root t).sound h

/-! ## Edits that fit -/

/-- The target of the edit is found, and its node accepts the replacement. -/
structure Edit.Fits (root : Tree) (e : Edit) : Prop where
  target : e.target.start < e.target.stop
  accepts : ∃ n, (Node.root root).findNode? e.target e.kind = some n ∧
    n.Accepts e.replacement.label
  sound : e.replacement.Sound
  hasWord : e.replacement.HasWord

theorem Edit.Fits.hasText {root : Tree} {e : Edit} (h : e.Fits root) : e.HasText :=
  ⟨h.target, h.sound.text_ne_empty h.hasWord⟩

/-- An edit of a node that a search for its kind and span finds. -/
theorem Edit.fits_ofNode {root : Tree} {n : Node} {r : Tree}
    (hfind : (Node.root root).findNode? n.span n.kind = some n)
    (hspan : n.span.start < n.span.stop) (haccepts : n.Accepts r.label) (hr : r.Sound)
    (hword : r.HasWord) : (Edit.ofNode n r).Fits root :=
  ⟨hspan, ⟨n, hfind, haccepts⟩, hr, hword⟩

theorem accepts_of_place {n n' : Node} (h : n'.place = n.place) {l : Label} (hn : n.Accepts l) :
    n'.Accepts l := by
  have hkinds := kinds_eq_of_place h
  simp only [place, Prod.mk.injEq] at h
  unfold Node.Accepts
  rw [h.1, hkinds]
  exact hn

/-! ## Edits from right to left -/

/-- Edits that fit a sound tree, with the places of their targets, from right to left. -/
structure FitsFromRight (root : Tree) (edits : List Located) : Prop where
  sound : root.Sound
  holds : ∀ l ∈ edits, l.Holds (.root root)
  fits : ∀ l ∈ edits, l.edit.Fits root
  sorted : edits.Pairwise fun a b => b.full.stop ≤ a.full.start

/-- The target of the edit is found in both trees, in the same place. -/
def Edit.Stays (root new : Tree) (e : Edit) : Prop :=
  ∃ m m', (Node.root root).findNode? e.target e.kind = some m ∧
    (Node.root new).findNode? e.target e.kind = some m' ∧ m'.place = m.place

/-- One edit is made. The targets still to come stand in front of it, so that they stay where they are
and the other edits fit the new tree. -/
theorem FitsFromRight.step {root : Tree} {l : Located} {edits : List Located}
    (h : FitsFromRight root (l :: edits)) :
    ∃ n, (Node.root root).findNode? l.edit.target l.edit.kind = some n ∧ l.full = n.fullSpan ∧
      FitsFromRight (n.replaceWith l.edit.replacement) edits ∧
      ∀ k ∈ edits, k.edit.Stays root (n.replaceWith l.edit.replacement) := by
  obtain ⟨hroot, hholds, hfits, hsorted⟩ := h
  rw [List.pairwise_cons] at hsorted
  rw [List.forall_mem_cons] at hholds hfits
  obtain ⟨n, hn, hfull⟩ := hholds.1
  obtain ⟨n', hn', haccepts⟩ := hfits.1.accepts
  obtain rfl := Option.some.inj (hn.symm.trans hn')
  have hstays : ∀ k ∈ edits, k.edit.Stays root (n.replaceWith l.edit.replacement) := by
    intro k hk
    obtain ⟨m, hm, hkfull⟩ := hholds.2 k hk
    have hle := hsorted.1 k hk
    rw [hfull, hkfull] at hle
    obtain ⟨m', hm', hplace⟩ := findNode?_replaceWith hn hm hfits.1.target (hfits.2 k hk).target
      hle hfits.1.hasText.2
    exact ⟨m, m', hm, hm', hplace⟩
  refine ⟨n, hn, hfull, ⟨?_, fun k hk => ?_, fun k hk => ?_, hsorted.2⟩, hstays⟩
  · exact (replaced_of_findNode? l.edit.replacement hn).sound hfits.1.sound (sound_tree_root hroot)
      haccepts
  · obtain ⟨m, m', hm, hm', hplace⟩ := hstays k hk
    obtain ⟨m₀, hm₀, hkfull⟩ := hholds.2 k hk
    obtain rfl := Option.some.inj (hm.symm.trans hm₀)
    exact ⟨m', hm', by rw [hkfull, fullSpan_eq_of_place hplace]⟩
  · obtain ⟨m, m', hm, hm', hplace⟩ := hstays k hk
    obtain ⟨m₀, hm₀, hkaccepts⟩ := (hfits.2 k hk).accepts
    obtain rfl := Option.some.inj (hm.symm.trans hm₀)
    exact { hfits.2 k hk with accepts := ⟨m', hm', accepts_of_place hplace hkaccepts⟩ }

theorem replaceTargets_cons (document : DocumentId) {root : Tree} {e : Edit} {n : Node}
    (h : (Node.root root).findNode? e.target e.kind = some n) (edits : List Edit) :
    replaceTargets document root (e :: edits) =
      replaceTargets document (n.replaceWith e.replacement) edits := by
  rw [replaceTargets, findTarget, h]
  rfl

/-- Edits that fit, from right to left: none fails, and the tree stays sound. -/
theorem replaceTargets_sound (document : DocumentId) {edits : List Located} {root : Tree}
    (h : FitsFromRight root edits) :
    ∃ new, replaceTargets document root (edits.map Located.edit) = .ok new ∧ new.Sound := by
  induction edits generalizing root with
  | nil => exact ⟨root, rfl, h.sound⟩
  | cons l edits ih =>
    obtain ⟨n, hn, -, hlater, -⟩ := h.step
    obtain ⟨new, hok, hsound⟩ := ih hlater
    refine ⟨new, ?_, hsound⟩
    rw [List.map_cons, replaceTargets_cons document hn]
    exact hok

/-- Edits that fit are applied and leave a sound tree, or two of them overlap and that is refused. -/
theorem applyEdits_sound (document : DocumentId) (policy : OverlapPolicy) {root : Tree}
    {edits : List Edit} (hroot : root.Sound) (hfits : ∀ e ∈ edits, e.Fits root) :
    (∃ new, applyEdits document root edits policy = .ok new ∧ new.Sound) ∨
      policy = .reject ∧ ∃ first second,
        applyEdits document root edits policy = .error (.overlap document first second) := by
  have hdistinct : ∀ e ∈ distinctEdits edits, e.Fits root := fun e he =>
    hfits e ((mem_distinctEdits edits e).mp he)
  have hfound : ∀ e ∈ distinctEdits edits,
      ((Node.root root).findNode? e.target e.kind).isSome = true := by
    intro e he
    obtain ⟨n, hn, -⟩ := (hdistinct e he).accepts
    rw [hn]
    rfl
  obtain ⟨located, hloc⟩ := exists_locateEdits document hfound
  obtain ⟨hmap, hall⟩ := locateEdits_ok hloc
  have hedit : ∀ l ∈ located, l.edit.Fits root := fun l hl =>
    hdistinct _ (hmap ▸ List.mem_map_of_mem hl)
  unfold applyEdits
  rw [hloc]
  simp only [bind, Except.bind]
  obtain ⟨out, hout, -⟩ | ⟨hreject, first, second, herror⟩ :=
    @acceptEdits_cases document policy [] (stableSort Located.order located) .nil
  · left
    obtain ⟨hmem, hsorted⟩ := pairwise_stop_le_of_acceptEdits
      (fun l hl => (hall l hl).start_lt (hedit l hl).target) hout
    rw [hout]
    exact replaceTargets_sound document ⟨hroot,
      fun l hl => hall l (hmem l (List.mem_reverse.mp hl)),
      fun l hl => hedit l (hmem l (List.mem_reverse.mp hl)), List.pairwise_reverse.mpr hsorted⟩
  · right
    refine ⟨hreject, first, second, ?_⟩
    rw [herror]

/-- What fitting edits make of a sound tree is sound. -/
theorem sound_of_applyEdits {document : DocumentId} {policy : OverlapPolicy} {root new : Tree}
    {edits : List Edit} (hroot : root.Sound) (hedits : ∀ e ∈ edits, e.Fits root)
    (h : applyEdits document root edits policy = .ok new) : new.Sound := by
  obtain ⟨new', hnew', hsound⟩ | ⟨-, first, second, herror⟩ :=
    applyEdits_sound document policy hroot hedits
  · obtain rfl := Except.ok.inj (h.symm.trans hnew')
    exact hsound
  · rw [h] at herror
    cases herror

end SharpLint
