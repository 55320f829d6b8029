import SharpLint.Proofs.Change.Edit
import SharpLint.Document.Order
import SharpLint.Proofs.Tree.Outermost

/-!
# Keeping the outermost edits

Under `keepFirst` edits of targets that are found are always applied. The full spans of nodes are
nested or apart, so that an edit which overlaps others is an edit around them or inside one of them,
or one of the same full span. Applied are the edits that no other edit goes around: of those with the
same full span only the one with the least target, and of those with the same target only the first
one of the list.

    applyEdits document root edits .keepFirst = .ok new,
      new.fullText = spliced text of root, with the changes of `outermostEdits` only
                                                                         (applyEdits_keepFirst)

Edits are accepted one after the other in the order of `Located.order`. What is dropped overlaps an
edit that was accepted before it, and with nested full spans this one goes around it.
-/

namespace SharpLint

open Node Std

/-! ## Edits around others -/

/-- The full span of the target. -/
def Edit.full? (root : Node) (e : Edit) : Option Span :=
  (root.findNode? e.target e.kind).map Node.fullSpan

/-- The first edit is applied in place of the second one: its full span holds more than that of the
second one, or is the same, and it has the lesser target, or the same target and an earlier place in
the list. -/
def Edit.supersedes (root : Node) (edits : List Edit) (f e : Edit) : Bool :=
  match f.full? root, e.full? root with
  | some outer, some inner =>
    outer.contains inner && outer != inner ||
      outer == inner &&
        (f.target.order e.target).then (compare (edits.idxOf f) (edits.idxOf e)) == .lt
  | _, _ => false

/-- The edits that no other edit goes around. -/
def outermostEdits (root : Node) (edits : List Edit) : List Edit :=
  edits.filter fun e => !edits.any fun f => f.supersedes root edits e

/-! ## Order of located edits -/

theorem Span.order_eq_compareLex : Span.order =
    compareLex (fun s t => compare s.start t.start) fun s t => compare s.stop t.stop := rfl

instance : TransCmp Span.order := by
  have hstart : TransCmp fun s t : Span => compare s.start t.start := transCmp_on compare Span.start
  have hstop : TransCmp fun s t : Span => compare s.stop t.stop := transCmp_on compare Span.stop
  rw [Span.order_eq_compareLex]
  infer_instance

namespace Located

theorem order_eq_compareLex : order =
    compareLex (compareLex (fun a b => compare a.full.start b.full.start)
      fun a b => compare b.full.stop a.full.stop) fun a b => a.edit.target.order b.edit.target := rfl

instance : TransCmp order := by
  have hstart : TransCmp fun a b : Located => compare a.full.start b.full.start :=
    transCmp_on compare fun l : Located => l.full.start
  have hstop : TransCmp fun a b : Located => compare b.full.stop a.full.stop :=
    { eq_swap := OrientedCmp.eq_swap, isLE_trans := fun hab hbc => TransCmp.isLE_trans hbc hab }
  have htarget : TransCmp fun a b : Located => a.edit.target.order b.edit.target :=
    transCmp_on Span.order fun l : Located => l.edit.target
  rw [order_eq_compareLex]
  infer_instance

variable {edits : List Edit} {a b c : Located}

/-- The first of the two is accepted or dropped before the second one. -/
def Before (edits : List Edit) (a b : Located) : Prop :=
  compareLex order (fun a b => compare (edits.idxOf a.edit) (edits.idxOf b.edit)) a b = .lt

theorem Before.trans (hab : a.Before edits b) (hbc : b.Before edits c) : a.Before edits c := by
  have hplace : TransCmp fun a b : Located => compare (edits.idxOf a.edit) (edits.idxOf b.edit) :=
    transCmp_on compare fun l : Located => edits.idxOf l.edit
  exact TransCmp.lt_trans hab hbc

/-- By start, longer full spans first, and by target and place in the list among the same full
spans. -/
theorem before_iff : a.Before edits b ↔
    a.full.start < b.full.start ∨ a.full.start = b.full.start ∧ (b.full.stop < a.full.stop ∨
      b.full.stop = a.full.stop ∧ (a.edit.target.order b.edit.target).then
        (compare (edits.idxOf a.edit) (edits.idxOf b.edit)) = .lt) := by
  simp only [Before, compareLex, order, Ordering.then_assoc, Ordering.then_eq_lt,
    Nat.compare_eq_lt, Nat.compare_eq_eq]

theorem not_before_self : ¬ a.Before edits a := by
  intro h
  have hself : a.order a = .eq := ReflCmp.compare_self
  simp [Before, compareLex, hself] at h

/-- One full span holds the other one, or they are apart. -/
def Nested (a b : Located) : Prop :=
  a.full.contains b.full = true ∨ b.full.contains a.full = true ∨ a.Apart b

/-- A full span with bytes overlaps what holds it. -/
theorem overlaps_of_contains (hb : b.full.start < b.full.stop)
    (h : a.full.contains b.full = true) : a.full.overlaps b.full = true := by
  rw [Span.contains_iff] at h
  rw [Span.overlaps_iff (by omega) hb]
  omega

/-- Of two edits that overlap the first one goes around the second one. -/
theorem contains_of_before (hnested : a.Nested b) (h : a.Before edits b)
    (hover : a.full.overlaps b.full = true) : a.full.contains b.full = true := by
  rcases hnested with houter | hinner | hapart
  · exact houter
  · rw [before_iff] at h
    rw [Span.contains_iff] at hinner ⊢
    omega
  · rw [Apart, hover] at hapart
    cases hapart

theorem Holds.full? {root : Node} {l : Located} (h : l.Holds root) :
    l.edit.full? root = some l.full := by
  obtain ⟨n, hn, hfull⟩ := h
  rw [Edit.full?, hn, hfull]
  rfl

/-- The edits that supersede another one are those before it that go around it. -/
theorem supersedes_iff {root : Node} (ha : a.Holds root) (hb : b.Holds root) :
    a.edit.supersedes root edits b.edit = true ↔
      a.Before edits b ∧ a.full.contains b.full = true := by
  have hspan : a.full = b.full ↔ a.full.start = b.full.start ∧ a.full.stop = b.full.stop := by
    rw [← Span.mk.injEq]
  rw [Edit.supersedes, ha.full?, hb.full?, before_iff]
  simp only [Bool.or_eq_true, Bool.and_eq_true, bne_iff_ne, beq_iff_eq, ne_eq, hspan,
    Span.contains_iff]
  by_cases htie : (a.edit.target.order b.edit.target).then
      (compare (edits.idxOf a.edit) (edits.idxOf b.edit)) = .lt
  · simp only [htie, and_true]
    omega
  · simp only [htie, and_false, or_false]
    omega

end Located

/-! ## Accepted edits -/

/-- Under `keepFirst` nothing fails. Accepted edits stay, and each other edit was accepted as well or
overlaps one that was accepted before it. -/
theorem acceptEdits_keepFirst (document : DocumentId) {R : Located → Located → Prop}
    {accepted located : List Located} (h : accepted.Pairwise Located.Apart)
    (hsorted : (accepted ++ located).Pairwise R) :
    ∃ kept, acceptEdits document .keepFirst accepted located = .ok kept ∧
      kept.Pairwise Located.Apart ∧ (∀ l ∈ accepted, l ∈ kept) ∧
      (∀ l ∈ kept, l ∈ accepted ∨ l ∈ located) ∧
      ∀ l ∈ located, l ∈ kept ∨ ∃ a ∈ kept, R a l ∧ a.full.overlaps l.full = true := by
  induction located generalizing accepted with
  | nil => exact ⟨accepted, rfl, h, by simp⟩
  | cons l located ih =>
    rw [acceptEdits]
    cases hf : accepted.find? (·.full.overlaps l.full) with
    | none =>
      obtain ⟨kept, hkept, hapart, hstay, hmem, hothers⟩ :=
        ih (pairwise_apart_concat h hf) (by simpa using hsorted)
      refine ⟨kept, hkept, hapart, fun k hk => hstay k (by simp [hk]), fun k hk => ?_, ?_⟩
      · simpa [or_assoc] using hmem k hk
      · rw [List.forall_mem_cons]
        exact ⟨.inl (hstay l (by simp)), hothers⟩
    | some previous =>
      have hprevious := List.mem_of_find?_eq_some hf
      have hbefore : R previous l :=
        (List.pairwise_append.mp hsorted).2.2 previous hprevious l List.mem_cons_self
      have hwithout : (accepted ++ located).Pairwise R :=
        hsorted.sublist ((List.sublist_cons_self l located).append_left accepted)
      obtain ⟨kept, hkept, hapart, hstay, hmem, hothers⟩ := ih h hwithout
      have hover : previous.full.overlaps l.full = true := by
        simpa using List.find?_some hf
      refine ⟨kept, hkept, hapart, hstay, fun k hk => ?_, ?_⟩
      · exact (hmem k hk).imp_right (List.mem_cons_of_mem l)
      · rw [List.forall_mem_cons]
        exact ⟨.inr ⟨previous, hstay previous hprevious, hbefore, hover⟩, hothers⟩

/-- With nested full spans, the accepted edits are those that no edit before them goes around. -/
theorem mem_kept_iff {edits : List Edit} {located kept : List Located}
    (hlt : ∀ l ∈ located, l.full.start < l.full.stop)
    (hnested : ∀ a ∈ located, ∀ b ∈ located, a.Nested b)
    (hmem : ∀ l ∈ kept, l ∈ located) (hapart : kept.Pairwise Located.Apart)
    (hothers : ∀ l ∈ located, l ∈ kept ∨
      ∃ a ∈ kept, a.Before edits l ∧ a.full.overlaps l.full = true) {l : Located}
    (hl : l ∈ located) :
    l ∈ kept ↔ ∀ a ∈ located, ¬ (a.Before edits l ∧ a.full.contains l.full = true) := by
  -- two accepted edits are the same or apart
  have hsame : ∀ a ∈ kept, ∀ b ∈ kept, a ≠ b → a.Apart b := by
    have hne : kept.Pairwise fun a b => a ≠ b → a.Apart b :=
      hapart.imp fun {a b} h (_ : a ≠ b) => h
    intro a ha b hb
    exact hne.forall_of_forall_of_flip (fun a _ h => absurd rfl h)
      (hapart.imp fun {a b} h (_ : b ≠ a) => h.symm) ha hb
  constructor
  · rintro hkept a ha ⟨hbefore, hcontains⟩
    -- an accepted edit goes around `a`, hence around `l`
    have hround : ∃ b ∈ kept, b.Before edits l ∧ b.full.contains l.full = true := by
      rcases hothers a ha with haccepted | ⟨b, hb, hba, hover⟩
      · exact ⟨a, haccepted, hbefore, hcontains⟩
      · have houter := Located.contains_of_before (hnested b (hmem b hb) a ha) hba hover
        refine ⟨b, hb, hba.trans hbefore, ?_⟩
        rw [Span.contains_iff] at houter hcontains ⊢
        omega
    obtain ⟨b, hb, hbl, hcontains⟩ := hround
    have hne : b ≠ l := by
      rintro rfl
      exact Located.not_before_self hbl
    have hoverlaps := Located.overlaps_of_contains (hlt l hl) hcontains
    rw [hsame b hb l hkept hne] at hoverlaps
    cases hoverlaps
  · intro hfree
    rcases hothers l hl with hkept | ⟨a, ha, hbefore, hover⟩
    · exact hkept
    · have houter := Located.contains_of_before (hnested a (hmem a ha) l hl) hbefore hover
      exact absurd ⟨hbefore, houter⟩ (hfree a (hmem a ha))

/-! ## Places in the list -/

/-- What is left of the list stands in its order. -/
theorem pairwise_idxOf_foldl (edits before seen : List Edit) (hseen : ∀ e, e ∈ seen ↔ e ∈ before)
    (h : seen.Pairwise fun e f => (before ++ edits).idxOf e < (before ++ edits).idxOf f) :
    (edits.foldl (fun seen e => if seen.contains e then seen else seen ++ [e]) seen).Pairwise
      fun e f => (before ++ edits).idxOf e < (before ++ edits).idxOf f := by
  induction edits generalizing before seen with
  | nil => exact h
  | cons f edits ih =>
    have hsplit : before ++ f :: edits = before ++ [f] ++ edits := by simp
    rw [hsplit] at h ⊢
    rw [List.foldl_cons]
    by_cases hf : f ∈ before
    · rw [if_pos (List.contains_iff_mem.mpr ((hseen f).mpr hf))]
      refine ih (before ++ [f]) seen (fun e => ?_) h
      rw [hseen, List.mem_append, List.mem_singleton]
      exact ⟨.inl, fun h => h.elim id fun h => h ▸ hf⟩
    · rw [if_neg (mt List.contains_iff_mem.mp (mt (hseen f).mp hf))]
      refine ih (before ++ [f]) (seen ++ [f]) (fun e => by simp [hseen]) ?_
      rw [List.pairwise_append]
      refine ⟨h, List.pairwise_singleton _ f, fun e he g hg => ?_⟩
      -- a new edit comes behind all others
      have he := (hseen e).mp he
      have hlt : before.idxOf e < before.length := List.idxOf_lt_length_of_mem he
      rw [List.mem_singleton.mp hg, List.append_assoc, List.idxOf_append, if_pos he,
        List.idxOf_append, if_neg hf]
      omega

theorem pairwise_idxOf_distinctEdits (edits : List Edit) :
    (distinctEdits edits).Pairwise fun e f => edits.idxOf e < edits.idxOf f :=
  pairwise_idxOf_foldl edits [] [] (fun _ => .rfl) .nil

/-! ## Top theorem -/

/-- Full spans of targets are nested or apart. -/
theorem Located.Holds.nested {root : Tree} {a b : Located} (ha : a.Holds (.root root))
    (hb : b.Holds (.root root)) (hta : a.edit.HasText) (htb : b.edit.HasText) : a.Nested b := by
  have hlta := ha.start_lt hta.1
  have hltb := hb.start_lt htb.1
  obtain ⟨m, hm, hma⟩ := ha
  obtain ⟨n, hn, hnb⟩ := hb
  rw [Nested, apart_iff hlta hltb, hma, hnb, Span.contains_iff, Span.contains_iff]
  obtain hbelow | habove | hapart :=
    (Inside.of_findNode? hm).apart_or_below (Inside.of_findNode? hn)
  · exact .inl (within_of_mem_descendants hbelow)
  · exact .inr (.inl (within_of_mem_descendants habove))
  · exact .inr (.inr hapart)

/-- The applied edits are the outermost ones. -/
theorem mem_outermostEdits_iff {root : Node} {edits : List Edit} {located kept : List Located}
    (hall : ∀ l ∈ located, l.Holds root)
    (hedits : ∀ e, e ∈ edits ↔ ∃ l ∈ located, l.edit = e) (hmem : ∀ l ∈ kept, l ∈ located)
    (hkept : ∀ l ∈ located,
      (l ∈ kept ↔ ∀ a ∈ located, ¬ (a.Before edits l ∧ a.full.contains l.full = true))) (e : Edit) :
    e ∈ kept.map Located.edit ↔ e ∈ outermostEdits root edits := by
  simp only [outermostEdits, List.mem_filter, Bool.not_eq_true', List.any_eq_false,
    List.mem_map]
  constructor
  · rintro ⟨l, hl, rfl⟩
    refine ⟨(hedits _).mpr ⟨l, hmem l hl, rfl⟩, fun f hf => ?_⟩
    obtain ⟨a, ha, rfl⟩ := (hedits f).mp hf
    rw [Located.supersedes_iff (hall a ha) (hall l (hmem l hl))]
    exact (hkept l (hmem l hl)).mp hl a ha
  · rintro ⟨he, hfree⟩
    obtain ⟨l, hl, rfl⟩ := (hedits e).mp he
    refine ⟨l, (hkept l hl).mpr fun a ha => ?_, rfl⟩
    rw [← Located.supersedes_iff (hall a ha) (hall l hl)]
    exact hfree a.edit ((hedits _).mpr ⟨a, ha, rfl⟩)

/-- Under `keepFirst` edits that are found are applied, and the text is the old one with the nodes of
the outermost edits replaced at once. -/
theorem applyEdits_keepFirst (document : DocumentId) (root : Tree) (edits : List Edit)
    (targets : ∀ e ∈ edits, e.target.start < e.target.stop)
    (found : ∀ e ∈ edits, ((Node.root root).findNode? e.target e.kind).isSome = true)
    (replacements : ∀ e ∈ edits, e.replacement.text ≠ "") :
    ∃ new, applyEdits document root edits .keepFirst = .ok new ∧
      new.fullText = String.ofList
        (splice (changesOf root (outermostEdits (.root root) edits)) 0 root.fullText.toList) := by
  have htext : ∀ e ∈ edits, e.HasText := fun e he => ⟨targets e he, replacements e he⟩
  obtain ⟨located, hloc⟩ := exists_locateEdits document fun e he =>
    found e ((mem_distinctEdits edits e).mp he)
  obtain ⟨hmap, hall⟩ := locateEdits_ok hloc
  have hedits : ∀ e, e ∈ edits ↔ ∃ l ∈ located, l.edit = e := fun e => by
    rw [← mem_distinctEdits, ← hmap, List.mem_map]
  have hperm := stableSort_perm Located.order located
  -- the sort leaves edits that compare equal in the order of the list
  have hkeys : located.Pairwise fun a b => edits.idxOf a.edit < edits.idxOf b.edit := by
    have hpairs := pairwise_idxOf_distinctEdits edits
    rwa [← hmap, List.pairwise_map] at hpairs
  have hsorted : (stableSort Located.order located).Pairwise (Located.Before edits) :=
    pairwise_stableSort_key (fun l : Located => edits.idxOf l.edit) hkeys
  obtain ⟨kept, haccept, hapart, -, hmem, hothers⟩ :=
    @acceptEdits_keepFirst document _ [] (stableSort Located.order located) .nil hsorted
  simp only [List.not_mem_nil, false_or, hperm.mem_iff] at hmem hothers
  have hlocated : ∀ l ∈ located, l.edit.HasText := fun l hl =>
    htext l.edit ((hedits _).mpr ⟨l, hl, rfl⟩)
  have hnested : ∀ a ∈ located, ∀ b ∈ located, a.Nested b := fun a ha b hb =>
    (hall a ha).nested (hall b hb) (hlocated a ha) (hlocated b hb)
  have hkept : ∀ l ∈ located,
      (l ∈ kept ↔ ∀ a ∈ located, ¬ (a.Before edits l ∧ a.full.contains l.full = true)) :=
    fun _ => mem_kept_iff (fun l hl => (hall l hl).start_lt (hlocated l hl).1) hnested hmem hapart
      hothers
  obtain ⟨new, hnew, hchars⟩ := applyEdits_splice_of_acceptEdits hloc haccept htext
    (mem_outermostEdits_iff hall hedits hmem hkept)
  exact ⟨new, hnew, by rw [Tree.fullText, hchars, Tree.fullText, String.toList_ofList]⟩

/-- A name of the sum replaced, and then the sum itself, twice. -/
def nestedEdits : List Edit :=
  [⟨⟨0, 1⟩, .identifierName, sampleName "left" [.space]⟩,
   ⟨⟨0, 5⟩, .addExpression, sampleName "total" []⟩,
   ⟨⟨0, 5⟩, .addExpression, sampleName "other" []⟩]

theorem applyEdits_keepFirst_nestedEdits :
    (∀ e ∈ nestedEdits, e.target.start < e.target.stop) ∧
      (∀ e ∈ nestedEdits, ((Node.root sampleSum).findNode? e.target e.kind).isSome = true) ∧
      (∀ e ∈ nestedEdits, e.replacement.text ≠ "") ∧
      ∃ new, applyEdits ⟨"A.cs"⟩ sampleSum nestedEdits .keepFirst = .ok new ∧
        new.fullText = "total;" := by
  have targets : ∀ e ∈ nestedEdits, e.target.start < e.target.stop := by decide
  have found : ∀ e ∈ nestedEdits,
      ((Node.root sampleSum).findNode? e.target e.kind).isSome = true := by decide +kernel
  have replacements : ∀ e ∈ nestedEdits, e.replacement.text ≠ "" := by decide +kernel
  obtain ⟨new, hnew, htext⟩ :=
    applyEdits_keepFirst ⟨"A.cs"⟩ sampleSum nestedEdits targets found replacements
  refine ⟨targets, found, replacements, new, hnew, ?_⟩
  rw [htext]
  decide +kernel

end SharpLint
