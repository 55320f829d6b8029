import SharpLint.Grammar.Parse
import SharpLint.Proofs.Change.Edit
import SharpLint.Proofs.Tree.Outermost

/-!
# Missing targets

`applyEdits` searches twice for a target: in the tree that it is given, and again when the target is
replaced, after all edits behind it. What the first search found, the second one finds as well, as
long as the edits are steady: their targets hold bytes, or no edit disturbs another one. So steady
edits fail with a missing target exactly when a target is not in the tree that they are given:

    applyEdits document root edits policy = .error (.missingTarget d span kind) →
      (root root).findNode? span kind = none                             (applyEdits_missingTarget)

Without bytes, a node can stand at the edge of another one and does not overlap it. Its edit comes
first, as edits are applied from the last to the first and the longer one of two that start together
is sorted to the front. Then the text that it puts in moves the other node, or becomes part of it,
and that node is not found any more (`applyEdits_missingTarget_found`).
-/

namespace SharpLint

open Node

/-! ## Edits that disturb others -/

/-- After the edit `f` a search for the target of `e` can go wrong. Either the node of `f` has no
byte and is at the start of the node of `e`, or at its end and inside of it. Or `f` puts in no text,
and a node of the kind of `e` is around both: this one may then have the span of `e`. -/
def Edit.disturbs (root : Node) (f e : Edit) : Bool :=
  match root.findNode? f.target f.kind, root.findNode? e.target e.kind with
  | some n, some m =>
    n.fullSpan.isEmpty && !m.fullSpan.isEmpty &&
        (n.offset == m.fullSpan.start ||
          n.offset == m.fullSpan.stop && m.descendants.contains n) ||
      f.replacement.text == "" && n.isWithin e.kind m.offset
  | _, _ => false

/-- All targets hold bytes, or no edit disturbs another one. -/
def Steady (root : Node) (edits : List Edit) : Prop :=
  (∀ e ∈ edits, e.target.start < e.target.stop) ∨
    ∀ e ∈ edits, ∀ f ∈ edits, e ≠ f → f.disturbs root e = false

/-- The edit `f` does not disturb `e`, and its node comes later. -/
def Edit.Clears (root : Node) (f e : Edit) : Prop :=
  ∀ n m, root.findNode? f.target f.kind = some n → root.findNode? e.target e.kind = some m →
    m.InFront n ∧ (f.replacement.text ≠ "" ∨ n.isWithin e.kind m.offset = false)

/-- Nodes in order that do not overlap are in front of each other, up to the edges of a node. -/
theorem inFront_of_calm {t : Tree} {m n : Node} (hm : m.Inside t) (hn : n.Inside t)
    (horder : m.fullSpan.start < n.fullSpan.start ∨
      m.fullSpan.start = n.fullSpan.start ∧ n.fullSpan.stop ≤ m.fullSpan.stop)
    (hapart : m.fullSpan.overlaps n.fullSpan = false)
    (hedge : (n.fullSpan.isEmpty && !m.fullSpan.isEmpty && (n.offset == m.fullSpan.start ||
      n.offset == m.fullSpan.stop && m.descendants.contains n)) = false) : m.InFront n := by
  by_cases hbytes : 0 < m.tree.width ∧ 0 < n.tree.width
  · rw [Bool.eq_false_iff, ne_eq, Span.overlaps_iff] at hapart
    · unfold InFront
      simp only [fullSpan, Span.ofLength] at horder hapart
      omega
    · simp only [fullSpan, Span.ofLength]
      omega
    · simp only [fullSpan, Span.ofLength]
      omega
  · have hempty : (m.fullSpan.isEmpty || n.fullSpan.isEmpty) = true := by
      simp only [fullSpan, Span.ofLength, Span.isEmpty, Bool.or_eq_true, beq_iff_eq]
      omega
    rw [Span.overlaps, if_pos hempty] at hapart
    simp only [Span.isEmpty, Bool.or_eq_false_iff, Bool.and_eq_false_iff, decide_eq_false_iff_not,
      beq_eq_false_iff_ne, Bool.not_eq_false', beq_iff_eq] at hapart hedge
    simp only [fullSpan, Span.ofLength] at horder hapart hedge
    by_cases hedges : n.offset = m.offset + m.tree.width ∧ 0 < m.tree.width
    · -- an empty node at the end of `m` is not inside of it
      refine .inr ⟨hedges.1.symm, hedges.2, .inr fun hpath => ?_⟩
      have hbelow : m.descendants.contains n = true :=
        List.contains_iff_mem.mpr (hn.mem_descendants_of_path hm hpath)
      simp only [hbelow, reduceCtorEq, or_false] at hedge
      omega
    · left
      omega

/-- Of two accepted edits in order, the second one clears the first one, unless it disturbs it. -/
theorem Located.Precedes.clears {root : Tree} {a b : Located} (h : a.Precedes b) (hapart : a.Apart b)
    (ha : a.Holds (.root root)) (hb : b.Holds (.root root))
    (hcalm : b.edit.disturbs (.root root) a.edit = false) :
    b.edit.Clears (.root root) a.edit := by
  intro n m hn hm
  obtain ⟨m', hm', hfull⟩ := ha
  obtain ⟨n', hn', hfull'⟩ := hb
  obtain rfl := Option.some.inj (hm.symm.trans hm')
  obtain rfl := Option.some.inj (hn.symm.trans hn')
  simp only [Edit.disturbs, hn, hm, Bool.or_eq_false_iff] at hcalm
  refine ⟨?_, ?_⟩
  · refine inFront_of_calm (.of_findNode? hm) (.of_findNode? hn) ?_ ?_ hcalm.1
    · simpa [Precedes, hfull, hfull'] using h
    · simpa [Apart, hfull, hfull'] using hapart
  · by_cases htext : b.edit.replacement.text = ""
    · right
      simpa [htext] using hcalm.2
    · exact .inl htext

/-! ## Edits that no other disturbs -/

/-- From right to left, edits that leave the others clear all find their targets. -/
theorem exists_replaceTargets_of_clears (document : DocumentId) {root : Tree} (edits : List Edit)
    (t : Tree)
    (hfound : ∀ e ∈ edits, ∃ m m', (Node.root root).findNode? e.target e.kind = some m ∧
      (Node.root t).findNode? e.target e.kind = some m' ∧ m'.place = m.place)
    (hclears : edits.Pairwise (Edit.Clears (.root root))) :
    ∃ new, replaceTargets document t edits = .ok new := by
  induction edits generalizing t with
  | nil => exact ⟨t, rfl⟩
  | cons e edits ih =>
    rw [List.pairwise_cons] at hclears
    rw [List.forall_mem_cons] at hfound
    obtain ⟨n, n', hn, hn', hplace⟩ := hfound.1
    have hstay : ∀ f ∈ edits, ∃ m m', (Node.root root).findNode? f.target f.kind = some m ∧
        (Node.root (n'.replaceWith e.replacement)).findNode? f.target f.kind = some m' ∧
        m'.place = m.place := by
      intro f hf
      obtain ⟨m, m', hm, hm', hsame⟩ := hfound.2 f hf
      obtain ⟨hfront, htext⟩ := hclears.1 f hf n m hn hm
      have hoffset : m'.offset = m.offset := by
        simp only [place, Prod.mk.injEq] at hsame
        exact hsame.2.2.1
      rw [← isWithin_eq_of_place hplace, ← hoffset] at htext
      obtain ⟨m'', hm'', hagain⟩ :=
        findNode?_replaced hn' hm' (hfront.of_place hsame hplace) htext
      exact ⟨m, m'', hm, hm'', hagain.trans hsame⟩
    obtain ⟨new, hnew⟩ := ih (n'.replaceWith e.replacement) hstay hclears.2
    refine ⟨new, ?_⟩
    rw [replaceTargets, findTarget, hn']
    exact hnew

/-! ## Targets with bytes -/

/-- Some node of the tree is where the edit was located, and has its kind and its target. -/
def Located.Stands (t : Tree) (l : Located) : Prop :=
  ∃ m : Node, m.Inside t ∧ m.isTarget l.edit.target l.edit.kind = true ∧ m.fullSpan = l.full

theorem Located.Holds.stands {t : Tree} {l : Located} (h : l.Holds (.root t)) : l.Stands t := by
  obtain ⟨m, hm, hfull⟩ := h
  exact ⟨m, .of_findNode? hm, isTarget_of_findNode? hm, hfull.symm⟩

/-- A node with the text of a node below stands behind what ends before that text. -/
theorem stop_le_of_span_eq {t : Tree} {n m x : Node} (hn : n.Inside t) (hx : x.Inside t)
    (hm : m ∈ n.descendants) (hspan : n.span = m.span) (hmtext : m.span.start < m.span.stop)
    (hxtext : x.span.start < x.span.stop) (hle : x.fullSpan.stop ≤ m.fullSpan.start) :
    x.offset + x.tree.width ≤ n.offset := by
  have hwithin := within_of_mem_descendants hm
  have hmfull := (Span.contains_iff _ _).mp (contains_span m)
  have hxfull := (Span.contains_iff _ _).mp (contains_span x)
  simp only [fullSpan, Span.ofLength] at hle hmfull hxfull
  obtain hbelow | haround | hapart := hn.apart_or_below hx
  · -- the text of `x` would be part of that of `m`
    have htokens : x.tree.tokens ≠ [] := by
      intro hnil
      have hwidth := x.tree.width_eq_fullWidths
      rw [hnil] at hwidth
      simp only [fullWidths] at hwidth
      omega
    have hinside := span_of_mem_descendants hbelow htokens
    rw [hspan] at hinside
    omega
  · have haround := within_of_mem_descendants haround
    omega
  · unfold Node.Apart at hapart
    omega

/-- A node with text keeps its place when a node behind it is replaced. -/
theorem Node.Inside.exists_of_replaced {t r : Tree} {n x : Node} {target : Span} {kind : NodeKind}
    (hn : (Node.root t).findNode? target kind = some n) (ht : target.start < target.stop)
    (hx : x.Inside t) (htext : x.span.start < x.span.stop)
    (hle : x.offset + x.tree.width ≤ n.offset) :
    ∃ x' : Node, x'.Inside (n.replaceWith r) ∧ x'.place = x.place := by
  have hfull := (Span.contains_iff _ _).mp (contains_span x)
  have hwidth := stop_le_of_isTarget (isTarget_of_findNode? hn) ht
  simp only [fullSpan, Span.ofLength] at hfull
  have hpath := mem_pathTo_span (mem_descendants_root.mpr hx) htext
  rw [pathTo, above_root, offset_root] at hpath
  split at hpath
  · have hfront : x.InFront n := by
      unfold InFront
      omega
    obtain ⟨x', hx', hplace⟩ := (descent_replaced (replaced_of_findNode? r hn) hpath hfront
      (Nat.le_of_lt htext) (by omega) [] rfl).exists_mem hpath
    refine ⟨x', ?_, hplace⟩
    cases hnew : n.replaceWith r with
    | token u =>
      rw [hnew] at hx'
      cases hx'
    | node k cs =>
      rw [hnew] at hx'
      refine .of_mem_descendants ?_
      rw [descendants_eq]
      exact mem_preorder_of_mem_descent _ hx'
  · cases hpath

/-- From right to left, targets with bytes are all found. -/
theorem exists_replaceTargets_of_lt (document : DocumentId) (edits : List Located) (t : Tree)
    (hlt : ∀ l ∈ edits, l.edit.target.start < l.edit.target.stop)
    (hstands : ∀ l ∈ edits, l.Stands t)
    (hsorted : edits.Pairwise fun a b => b.full.stop ≤ a.full.start) :
    ∃ new, replaceTargets document t (edits.map Located.edit) = .ok new := by
  induction edits generalizing t with
  | nil => exact ⟨t, rfl⟩
  | cons l edits ih =>
    rw [List.pairwise_cons] at hsorted
    rw [List.forall_mem_cons] at hlt hstands
    obtain ⟨m, hm, htarget, hfull⟩ := hstands.1
    obtain ⟨hkind, hspan⟩ := isTarget_iff.mp htarget
    -- the search finds this node or one around it with the same text
    have hmem := mem_descendants_root.mpr hm
    obtain ⟨n, hn⟩ := Option.isSome_iff_exists.mp (isSome_findNode? hlt.1 hmem hspan)
    rw [hkind] at hn
    have houter := outermost_of_findNode? hlt.1 hn
    have hstay : ∀ k ∈ edits, k.Stands (n.replaceWith l.edit.replacement) := by
      intro k hk
      obtain ⟨x, hx, hxtarget, hxfull⟩ := hstands.2 k hk
      have hxlt : x.span.start < x.span.stop := by
        rw [(isTarget_iff.mp hxtarget).2]
        exact hlt.2 k hk
      have hle : x.offset + x.tree.width ≤ n.offset := by
        refine stop_le_of_span_eq (.of_mem_descendants houter.mem) hx
          (houter.below m hmem ⟨hkind, hspan⟩) (houter.holds.2.trans hspan.symm) ?_ hxlt ?_
        · rw [hspan]
          exact hlt.1
        · rw [hxfull, hfull]
          exact hsorted.1 k hk
      obtain ⟨x', hx', hplace⟩ :=
        Inside.exists_of_replaced (r := l.edit.replacement) hn hlt.1 hx hxlt hle
      refine ⟨x', hx', ?_, ?_⟩
      · rw [isTarget_eq_of_place hplace, hxtarget]
      · rw [fullSpan_eq_of_place hplace, hxfull]
    obtain ⟨new, hnew⟩ := ih (n.replaceWith l.edit.replacement) hlt.2 hstay hsorted.2
    refine ⟨new, ?_⟩
    rw [List.map_cons, replaceTargets, findTarget, hn]
    exact hnew

/-! ## Top theorem -/

/-- The first search fails on a target that is not in the tree. -/
theorem locateEdits_cases (document : DocumentId) (root : Node) (edits : List Edit) :
    (∃ located, locateEdits document root edits = .ok located) ∨
      ∃ e ∈ edits, root.findNode? e.target e.kind = none ∧
        locateEdits document root edits = .error (.missingTarget document e.target e.kind) := by
  induction edits with
  | nil => exact .inl ⟨[], rfl⟩
  | cons e edits ih =>
    rw [locateEdits, findTarget]
    cases hn : root.findNode? e.target e.kind with
    | none => exact .inr ⟨e, List.mem_cons_self, hn, rfl⟩
    | some n =>
      obtain ⟨others, ho⟩ | ⟨f, hf, hnone, herror⟩ := ih
      · left
        rw [ho]
        exact ⟨_, rfl⟩
      · right
        rw [herror]
        exact ⟨f, List.mem_cons_of_mem e hf, hnone, rfl⟩

/-- Edits that are steady and found are applied, or refused because two of them overlap. -/
theorem Steady.applyEdits_cases {document : DocumentId} (policy : OverlapPolicy) {root : Tree}
    {edits : List Edit} (h : Steady (.root root) edits) {located : List Located}
    (hloc : locateEdits document (.root root) (distinctEdits edits) = .ok located) :
    (∃ new, applyEdits document root edits policy = .ok new) ∨
      ∃ first second,
        applyEdits document root edits policy = .error (.overlap document first second) := by
  obtain ⟨hmap, hall⟩ := locateEdits_ok hloc
  have hedit : ∀ l ∈ located, l.edit ∈ edits := fun l hl =>
    (mem_distinctEdits edits _).mp (hmap ▸ List.mem_map_of_mem hl)
  unfold applyEdits
  rw [hloc]
  simp only [bind, Except.bind]
  obtain ⟨accepted, haccept, hapart, hsub⟩ | ⟨-, first, second, herror⟩ :=
    @acceptEdits_cases document policy [] (stableSort Located.order located) .nil
  · left
    rw [haccept]
    have hmem : ∀ l ∈ accepted, l ∈ located := fun l hl =>
      (stableSort_perm Located.order located).mem_iff.mp (hsub.mem hl)
    rcases h with hbytes | hcalm
    · have hlt : ∀ l ∈ located, l.full.start < l.full.stop := fun l hl =>
        (hall l hl).start_lt (hbytes _ (hedit l hl))
      obtain ⟨-, hsorted⟩ := pairwise_stop_le_of_acceptEdits hlt haccept
      refine exists_replaceTargets_of_lt document accepted.reverse root (fun l hl => ?_)
        (fun l hl => ?_) (List.pairwise_reverse.mpr hsorted)
      · exact hbytes _ (hedit l (hmem l (List.mem_reverse.mp hl)))
      · exact (hall l (hmem l (List.mem_reverse.mp hl))).stands
    · have hne : accepted.Pairwise fun a b => a.edit ≠ b.edit :=
        ((stableSort_perm Located.order located).symm.pairwise (pairwise_edit_ne hloc)
          Ne.symm).sublist hsub
      refine @exists_replaceTargets_of_clears document root _ root (fun e he => ?_) ?_
      · obtain ⟨l, hl, rfl⟩ := List.mem_map.mp he
        obtain ⟨m, hm, -⟩ := hall l (hmem l (List.mem_reverse.mp hl))
        exact ⟨m, m, hm, hm, rfl⟩
      · rw [List.pairwise_map, List.pairwise_reverse]
        have hprecedes := (Located.pairwise_precedes located).sublist hsub
        refine ((hprecedes.and hapart).and hne).imp_of_mem ?_
        rintro a b ha hb ⟨⟨hab, hapart⟩, hne⟩
        exact hab.clears hapart (hall a (hmem a ha)) (hall b (hmem b hb))
          (hcalm _ (hedit a (hmem a ha)) _ (hedit b (hmem b hb)) hne)
  · right
    rw [herror]
    exact ⟨first, second, rfl⟩

/-- Steady edits fail with a missing target exactly when a target is not in the tree, and the error
names such a target. -/
theorem applyEdits_missingTarget (document : DocumentId) (root : Tree) (edits : List Edit)
    (policy : OverlapPolicy) (steady : Steady (.root root) edits) :
    (∀ d span kind, applyEdits document root edits policy = .error (.missingTarget d span kind) →
      d = document ∧ (∃ e ∈ edits, e.target = span ∧ e.kind = kind) ∧
        (Node.root root).findNode? span kind = none) ∧
    ((∃ d span kind,
        applyEdits document root edits policy = .error (.missingTarget d span kind)) ↔
      ∃ e ∈ edits, (Node.root root).findNode? e.target e.kind = none) := by
  obtain ⟨located, hloc⟩ | ⟨e, he, hnone, herror⟩ :=
    locateEdits_cases document (.root root) (distinctEdits edits)
  · -- all targets are found, so that nothing is missing later
    have hnot : ∀ d span kind,
        applyEdits document root edits policy ≠ .error (.missingTarget d span kind) := by
      intro d span kind h
      obtain ⟨new, hnew⟩ | ⟨first, second, hoverlap⟩ := steady.applyEdits_cases policy hloc
      · rw [h] at hnew
        cases hnew
      · rw [h] at hoverlap
        cases hoverlap
    refine ⟨fun d span kind h => absurd h (hnot d span kind), ?_⟩
    constructor
    · rintro ⟨d, span, kind, h⟩
      exact absurd h (hnot d span kind)
    · rintro ⟨e, he, hnone⟩
      obtain ⟨hmap, hall⟩ := locateEdits_ok hloc
      rw [← mem_distinctEdits, ← hmap, List.mem_map] at he
      obtain ⟨l, hl, rfl⟩ := he
      obtain ⟨n, hn, -⟩ := hall l hl
      rw [hnone] at hn
      cases hn
  · have he := (mem_distinctEdits edits e).mp he
    have happly : applyEdits document root edits policy =
        .error (.missingTarget document e.target e.kind) := by
      unfold applyEdits
      rw [herror]
      rfl
    refine ⟨fun d span kind h => ?_, fun _ => ⟨e, he, hnone⟩, fun _ => ⟨_, _, _, happly⟩⟩
    rw [happly, Except.error.injEq, ApplyError.missingTarget.injEq] at h
    obtain ⟨rfl, rfl, rfl⟩ := h
    exact ⟨rfl, ⟨e, he, rfl, rfl⟩, hnone⟩

/-- A field without modifiers. -/
def fieldSource : String := "class C { int F; }"

/-- `public` and a blank. -/
def publicModifier : Tree := .node .modifierList [.token ⟨.keyword .kwPublic, "public", [], [.space]⟩]

/-- `long` and a blank. -/
def longType : Tree := .node .predefinedType [.token ⟨.keyword .kwLong, "long", [], [.space]⟩]

/-- The modifier comes in front of the name of the field, and there is no long type. -/
def steadyEdits : List Edit :=
  [⟨⟨10, 10⟩, .modifierList, publicModifier⟩, ⟨⟨14, 15⟩, .variableDeclarator, sampleName "G" []⟩,
   ⟨⟨10, 14⟩, .predefinedType, longType⟩]

theorem applyEdits_missingTarget_steadyEdits :
    ∃ t, parse fieldSource = .ok t ∧ Steady (.root t) steadyEdits ∧
      ∃ d span kind, applyEdits ⟨"Test.cs"⟩ t steadyEdits .reject =
          .error (.missingTarget d span kind) ∧
        (Node.root t).findNode? span kind = none := by
  have hread : (parse fieldSource).toOption.any (fun t =>
      (steadyEdits.all fun e => steadyEdits.all fun f =>
          e == f || !f.disturbs (.root t) e) &&
        ((Node.root t).findNode? ⟨10, 14⟩ .predefinedType).isNone) = true := by
    decide +kernel
  cases h : parse fieldSource with
  | error e =>
    rw [h] at hread
    cases hread
  | ok t =>
    rw [h] at hread
    simp only [Except.toOption, Option.any_some, Bool.and_eq_true, List.all_eq_true,
      Bool.or_eq_true, beq_iff_eq, Bool.not_eq_true', Option.isNone_iff_eq_none] at hread
    obtain ⟨hcalm, hnone⟩ := hread
    have hsteady : Steady (.root t) steadyEdits :=
      .inr fun e he f hf hne => (hcalm e he f hf).resolve_left hne
    obtain ⟨htrue, hmissing⟩ :=
      applyEdits_missingTarget ⟨"Test.cs"⟩ t steadyEdits .reject hsteady
    obtain ⟨d, span, kind, herror⟩ := hmissing.mpr ⟨⟨⟨10, 14⟩, .predefinedType, longType⟩, by simp [steadyEdits], hnone⟩
    exact ⟨t, rfl, hsteady, d, span, kind, herror, (htrue d span kind herror).2.2⟩

/-- The modifier and the type start together. -/
def disturbedEdits : List Edit :=
  [⟨⟨10, 10⟩, .modifierList, publicModifier⟩, ⟨⟨10, 13⟩, .predefinedType, longType⟩]

/-- Both targets are in the tree. The modifier is put in first, and then the type is not where it
was. -/
theorem applyEdits_missingTarget_found :
    ∃ t, parse fieldSource = .ok t ∧
      (∀ e ∈ disturbedEdits, ((Node.root t).findNode? e.target e.kind).isSome = true) ∧
      ∀ policy, applyEdits ⟨"Test.cs"⟩ t disturbedEdits policy =
        .error (.missingTarget ⟨"Test.cs"⟩ ⟨10, 13⟩ .predefinedType) := by
  have hread : (parse fieldSource).toOption.any (fun t =>
      (disturbedEdits.all fun e => ((Node.root t).findNode? e.target e.kind).isSome) &&
        [OverlapPolicy.reject, .keepFirst].all fun policy =>
          match applyEdits ⟨"Test.cs"⟩ t disturbedEdits policy with
          | .ok _ => false
          | .error e => e == .missingTarget ⟨"Test.cs"⟩ ⟨10, 13⟩ .predefinedType) = true := by
    decide +kernel
  cases h : parse fieldSource with
  | error e =>
    rw [h] at hread
    cases hread
  | ok t =>
    rw [h] at hread
    simp only [Except.toOption, Option.any_some, Bool.and_eq_true, List.all_eq_true] at hread
    refine ⟨t, rfl, hread.1, fun policy => ?_⟩
    have hpolicy : policy ∈ [OverlapPolicy.reject, .keepFirst] := by
      cases policy <;> simp
    have herror := hread.2 policy hpolicy
    split at herror
    · cases herror
    · rename_i e he
      rw [he, beq_iff_eq.mp herror]

end SharpLint
