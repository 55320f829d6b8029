import SharpLint.Change.Edit
import SharpLint.Proofs.Change.Splice
import SharpLint.Proofs.Tree.Search

/-!
# Edits as one change of text

Edits with targets that are not empty, and with replacements that have text, are applied under
`reject` exactly when every target is found and no two different edits overlap. The new text is then
the old one with all located nodes replaced at once, whatever the order of the edits.

    applyEdits document root edits .reject = .ok new →
      new.fullText = spliced text of root            (applyEdits_reject_iff_and_fullText)

The last step of `applyEdits` replaces one target after the other and searches for each of them in a
tree that has changed. The invariant of this loop (`replaceTargets_splice`) is that all targets still
to come stand in front of the changes made so far, and are found where they were at the start.
-/

namespace SharpLint

open Node

/-! ## Which edits are applied -/

theorem mem_distinctEdits_foldl (edits seen : List Edit) (e : Edit) :
    e ∈ edits.foldl (fun seen e => if seen.contains e then seen else seen ++ [e]) seen ↔
      e ∈ seen ∨ e ∈ edits := by
  induction edits generalizing seen with
  | nil => simp
  | cons f edits ih =>
    rw [List.foldl_cons, ih]
    by_cases hf : seen.contains f = true
    · rw [if_pos hf]
      rw [List.contains_iff_mem] at hf
      constructor
      · rintro (h | h)
        · exact Or.inl h
        · exact Or.inr (List.mem_cons_of_mem _ h)
      · rintro (h | h)
        · exact Or.inl h
        · rcases List.mem_cons.1 h with rfl | h
          · exact Or.inl hf
          · exact Or.inr h
    · rw [if_neg hf]
      simp [or_assoc]

theorem mem_distinctEdits (edits : List Edit) (e : Edit) : e ∈ distinctEdits edits ↔ e ∈ edits := by
  rw [distinctEdits, mem_distinctEdits_foldl]
  simp

theorem nodup_distinctEdits (edits : List Edit) : (distinctEdits edits).Nodup := by
  have step : ∀ (edits seen : List Edit), seen.Nodup →
      (edits.foldl (fun seen e => if seen.contains e then seen else seen ++ [e]) seen).Nodup := by
    intro edits
    induction edits with
    | nil => exact fun _ h => h
    | cons f edits ih =>
      intro seen h
      rw [List.foldl_cons]
      apply ih
      split
      · exact h
      · rename_i hf
        rw [List.contains_iff_mem] at hf
        rw [List.nodup_append]
        refine ⟨h, by simp, ?_⟩
        intro a ha b hb
        rw [List.mem_singleton] at hb
        rintro rfl
        exact hf (hb ▸ ha)
  exact step edits [] List.nodup_nil

/-- The edit's target is found in the tree, and `full` is its full span. -/
def Located.Holds (root : Node) (l : Located) : Prop :=
  ∃ n, root.findNode? l.edit.target l.edit.kind = some n ∧ l.full = n.fullSpan

theorem locateEdits_ok {document : DocumentId} {root : Node} {edits : List Edit}
    {located : List Located} (h : locateEdits document root edits = .ok located) :
    located.map Located.edit = edits ∧ ∀ l ∈ located, l.Holds root := by
  induction edits generalizing located with
  | nil =>
    cases h
    simp
  | cons e edits ih =>
    rw [locateEdits, findTarget] at h
    cases hn : root.findNode? e.target e.kind with
    | none =>
      rw [hn] at h
      cases h
    | some n =>
      rw [hn] at h
      cases ho : locateEdits document root edits with
      | error err =>
        rw [ho] at h
        cases h
      | ok others =>
        rw [ho] at h
        cases h
        obtain ⟨hmap, hall⟩ := ih ho
        refine ⟨by simp [hmap], fun l hl => ?_⟩
        rcases List.mem_cons.1 hl with rfl | hl
        · exact ⟨n, hn, rfl⟩
        · exact hall l hl

theorem exists_locateEdits (document : DocumentId) {root : Node} {edits : List Edit}
    (h : ∀ e ∈ edits, (root.findNode? e.target e.kind).isSome) :
    ∃ located, locateEdits document root edits = .ok located := by
  induction edits with
  | nil => exact ⟨[], rfl⟩
  | cons e edits ih =>
    obtain ⟨n, hn⟩ := Option.isSome_iff_exists.1 (h e List.mem_cons_self)
    obtain ⟨others, ho⟩ := ih fun f hf => h f (List.mem_cons_of_mem _ hf)
    refine ⟨⟨n.fullSpan, e⟩ :: others, ?_⟩
    rw [locateEdits, findTarget, hn, ho]
    rfl

/-- Two located edits share no text. -/
def Located.Apart (a b : Located) : Prop := a.full.overlaps b.full = false

theorem Located.Apart.symm {a b : Located} (h : a.Apart b) : b.Apart a := by
  rw [Located.Apart, Span.overlaps_comm]
  exact h

/-- Edits of spans with bytes are apart when one span ends before the other one starts. -/
theorem Located.apart_iff {a b : Located} (ha : a.full.start < a.full.stop)
    (hb : b.full.start < b.full.stop) :
    a.Apart b ↔ a.full.stop ≤ b.full.start ∨ b.full.stop ≤ a.full.start := by
  rw [Located.Apart, Bool.eq_false_iff, ne_eq, Span.overlaps_iff ha hb]
  omega

theorem pairwise_apart_concat {accepted : List Located} {l : Located}
    (h : accepted.Pairwise Located.Apart)
    (hl : accepted.find? (·.full.overlaps l.full) = none) :
    (accepted ++ [l]).Pairwise Located.Apart := by
  rw [List.pairwise_append]
  refine ⟨h, List.pairwise_singleton _ l, fun a ha b hb => ?_⟩
  rw [List.mem_singleton.1 hb]
  simpa [Located.Apart] using List.find?_eq_none.1 hl a ha

/-- Under `reject` all edits are accepted, or two of them overlap. -/
theorem acceptEdits_reject_iff {document : DocumentId} {accepted located out : List Located}
    (h : accepted.Pairwise Located.Apart) :
    acceptEdits document .reject accepted located = .ok out ↔
      out = accepted ++ located ∧ (accepted ++ located).Pairwise Located.Apart := by
  induction located generalizing accepted with
  | nil =>
    rw [acceptEdits, List.append_nil]
    constructor
    · intro ho
      cases ho
      exact ⟨rfl, h⟩
    · rintro ⟨rfl, -⟩
      rfl
  | cons l located ih =>
    rw [acceptEdits]
    cases hf : accepted.find? (·.full.overlaps l.full) with
    | none =>
      simp only
      rw [ih (pairwise_apart_concat h hf)]
      simp
    | some previous =>
      have hp := List.find?_some hf
      have hmem := List.mem_of_find?_eq_some hf
      simp only [reduceCtorEq, false_iff, not_and]
      intro _ hall
      rw [List.pairwise_append] at hall
      have : previous.Apart l := hall.2.2 previous hmem l List.mem_cons_self
      rw [Located.Apart, hp] at this
      cases this

/-- Some edits are accepted, all apart from one another; or two overlap and that is refused. -/
theorem acceptEdits_cases (document : DocumentId) (policy : OverlapPolicy)
    {accepted located : List Located} (h : accepted.Pairwise Located.Apart) :
    (∃ out, acceptEdits document policy accepted located = .ok out ∧
        out.Pairwise Located.Apart ∧ out.Sublist (accepted ++ located)) ∨
      policy = .reject ∧ ∃ first second,
        acceptEdits document policy accepted located = .error (.overlap document first second) := by
  induction located generalizing accepted with
  | nil => exact .inl ⟨accepted, rfl, h, by simp⟩
  | cons l located ih =>
    rw [acceptEdits]
    cases hf : accepted.find? (·.full.overlaps l.full) with
    | none => simpa using ih (pairwise_apart_concat h hf)
    | some previous =>
      cases policy with
      | reject => exact .inr ⟨rfl, _, _, rfl⟩
      | keepFirst =>
        obtain ⟨out, hout, hapart, hsub⟩ | ⟨hreject, -⟩ := ih h
        · exact .inl ⟨out, hout, hapart, hsub.trans (by simp)⟩
        · cases hreject

/-! ## The order of edits -/

namespace Located

/-- The edit starts in front of the other, or with it, and then it is not shorter. -/
def Precedes (a b : Located) : Prop :=
  a.full.start < b.full.start ∨ a.full.start = b.full.start ∧ b.full.stop ≤ a.full.stop

theorem Precedes.start_le {a b : Located} (h : a.Precedes b) : a.full.start ≤ b.full.start := by
  unfold Precedes at h
  omega

theorem precedes_of_order (a b : Located) :
    (a.order b = .gt → b.Precedes a) ∧ (a.order b ≠ .gt → a.Precedes b) := by
  unfold order Precedes
  rcases Nat.lt_trichotomy a.full.start b.full.start with hstart | hstart | hstart
  · rw [Nat.compare_eq_lt.mpr hstart]
    exact ⟨nofun, fun _ => .inl hstart⟩
  · rw [Nat.compare_eq_eq.mpr hstart]
    rcases Nat.lt_trichotomy b.full.stop a.full.stop with hstop | hstop | hstop
    · rw [Nat.compare_eq_lt.mpr hstop]
      exact ⟨nofun, fun _ => .inr ⟨hstart, Nat.le_of_lt hstop⟩⟩
    · exact ⟨fun _ => .inr ⟨hstart.symm, Nat.le_of_eq hstop.symm⟩,
        fun _ => .inr ⟨hstart, Nat.le_of_eq hstop⟩⟩
    · rw [Nat.compare_eq_gt.mpr hstop]
      exact ⟨fun _ => .inr ⟨hstart.symm, Nat.le_of_lt hstop⟩, fun h => absurd rfl h⟩
  · rw [Nat.compare_eq_gt.mpr hstart]
    exact ⟨fun _ => .inl hstart, fun h => absurd rfl h⟩

theorem pairwise_precedes (located : List Located) :
    (stableSort order located).Pairwise Precedes := by
  refine pairwise_stableSort (fun a b => (precedes_of_order a b).1)
    (fun a b => (precedes_of_order a b).2) (fun a b c hab hbc => ?_) located
  unfold Precedes at hab hbc ⊢
  omega

end Located

/-! ## Replacing from the right -/

/-- What the theorems here ask of an edit: a target with bytes, and a replacement with text. -/
def Edit.HasText (e : Edit) : Prop := e.target.start < e.target.stop ∧ e.replacement.text ≠ ""

/-- An edit as a change of text. -/
def Located.change (l : Located) : TextChange := ⟨l.full, l.edit.replacement.fullChars⟩

theorem Located.Holds.start_lt {root : Node} {l : Located} (h : l.Holds root)
    (ht : l.edit.target.start < l.edit.target.stop) : l.full.start < l.full.stop := by
  obtain ⟨n, hn, hfull⟩ := h
  have := stop_le_of_isTarget (isTarget_of_findNode? hn) ht
  rw [hfull]
  simp only [fullSpan, Span.ofLength]
  omega

/-- Edits that are found, from right to left: none fails, and together they splice the text. -/
theorem replaceTargets_splice (document : DocumentId) (edits : List Located) (root : Tree)
    (hfound : ∀ l ∈ edits, l.Holds (.root root)) (htext : ∀ l ∈ edits, l.edit.HasText)
    (hsorted : edits.Pairwise fun a b => b.full.stop ≤ a.full.start) :
    ∃ new, replaceTargets document root (edits.map Located.edit) = .ok new ∧
      new.fullChars = splice (edits.map Located.change) 0 root.fullChars := by
  induction edits generalizing root with
  | nil => exact ⟨root, rfl, (splice_of_le _ (by simp) (by simp)).symm⟩
  | cons l edits ih =>
    rw [List.pairwise_cons] at hsorted
    have hmem : ∀ {k}, k ∈ edits → k ∈ l :: edits := List.mem_cons_of_mem _
    have hl := htext l List.mem_cons_self
    obtain ⟨n, hn, hfull⟩ := hfound l List.mem_cons_self
    -- the targets still to come stand in front of `n` and are found again
    have hstay : ∀ k ∈ edits, k.Holds (.root (n.replaceWith l.edit.replacement)) := by
      intro k hk
      obtain ⟨m, hm, hkfull⟩ := hfound k (hmem hk)
      have hle := hsorted.1 k hk
      rw [hfull, hkfull] at hle
      obtain ⟨m', hm', hplace⟩ :=
        findNode?_replaceWith hn hm hl.1 (htext k (hmem hk)).1 hle hl.2
      exact ⟨m', hm', by rw [hkfull, fullSpan_eq_of_place hplace]⟩
    obtain ⟨new, hnew, hchars⟩ := ih (n.replaceWith l.edit.replacement) hstay
      (fun k hk => htext k (hmem hk)) hsorted.2
    refine ⟨new, ?_, ?_⟩
    · rw [List.map_cons, replaceTargets, findTarget, hn]
      exact hnew
    · obtain ⟨pre, post, h1, h2, h3⟩ := (replaced_of_findNode? l.edit.replacement hn).exists_split
      rw [fullChars_tree_root] at h1
      rw [Nat.zero_add] at h3
      have hlt := (hfound l List.mem_cons_self).start_lt hl.1
      have hwidth : n.tree.width = byteLength n.tree.fullChars := Tree.width_eq_byteLength _
      have hspan : l.full.start = byteLength pre ∧
          l.full.stop = byteLength pre + byteLength n.tree.fullChars := by
        rw [hfull]
        simp only [fullSpan, Span.ofLength]
        omega
      rw [hchars, h1, h2, List.map_cons]
      symm
      apply splice_cons (c := l.change) pre n.tree.fullChars post hspan.1 hspan.2
      · intro hnil
        rw [hnil] at hspan
        simp only [byteLength_nil] at hspan
        omega
      · intro d hd
        obtain ⟨k, hk, rfl⟩ := List.mem_map.1 hd
        exact (hfound k (hmem hk)).start_lt (htext k (hmem hk)).1
      · intro d hd
        obtain ⟨k, hk, rfl⟩ := List.mem_map.1 hd
        exact hsorted.1 k hk

/-! ## All edits -/

/-- Sorted by start, spans that hold bytes and are apart follow one another. -/
theorem pairwise_stop_le {located : List Located} (hlt : ∀ l ∈ located, l.full.start < l.full.stop)
    (hapart : located.Pairwise Located.Apart)
    (hsorted : located.Pairwise fun a b => a.full.start ≤ b.full.start) :
    located.Pairwise fun a b => a.full.stop ≤ b.full.start := by
  refine (List.pairwise_and_iff.2 ⟨hapart, hsorted⟩).imp_of_mem ?_
  rintro a b ha hb ⟨hab, hle⟩
  have h1 := hlt a ha
  have h2 := hlt b hb
  rw [Located.apart_iff h1 h2] at hab
  omega

/-- Accepted edits are some of the located ones, and follow one another. -/
theorem pairwise_stop_le_of_acceptEdits {document : DocumentId} {policy : OverlapPolicy}
    {located out : List Located} (hlt : ∀ l ∈ located, l.full.start < l.full.stop)
    (h : acceptEdits document policy [] (stableSort Located.order located) = .ok out) :
    (∀ l ∈ out, l ∈ located) ∧ out.Pairwise fun a b => a.full.stop ≤ b.full.start := by
  obtain ⟨out', hout, hapart, hsub⟩ | ⟨-, first, second, herror⟩ :=
    @acceptEdits_cases document policy [] (stableSort Located.order located) .nil
  · obtain rfl := Except.ok.inj (h.symm.trans hout)
    have hmem : ∀ l ∈ out, l ∈ located := fun l hl =>
      (stableSort_perm Located.order located).mem_iff.mp (hsub.mem hl)
    have hstarts : out.Pairwise fun a b => a.full.start ≤ b.full.start :=
      ((Located.pairwise_precedes located).sublist hsub).imp Located.Precedes.start_le
    exact ⟨hmem, pairwise_stop_le (fun l hl => hlt l (hmem l hl)) hapart hstarts⟩
  · rw [h] at herror
    cases herror

theorem eq_of_start_eq {located : List Located} (hlt : ∀ l ∈ located, l.full.start < l.full.stop)
    (h : located.Pairwise fun a b => a.full.stop ≤ b.full.start) :
    ∀ a ∈ located, ∀ b ∈ located, a.full.start = b.full.start → a = b := by
  have hR : located.Pairwise fun a b => a.full.start = b.full.start → a = b :=
    h.imp_of_mem fun {a b} ha _ hab heq => by
      have := hlt a ha
      omega
  intro a ha b hb
  exact hR.forall_of_forall_of_flip (fun _ _ _ => rfl)
    (hR.imp fun h heq => (h heq.symm).symm) ha hb

/-- The changes of text that edits of a tree ask for. -/
def changesOf (root : Tree) (edits : List Edit) : List TextChange :=
  edits.filterMap fun e =>
    ((Node.root root).findNode? e.target e.kind).map fun n => ⟨n.fullSpan, e.replacement.fullChars⟩

/-- Every target is found, and the nodes of different edits share no text. -/
structure Applicable (root : Node) (edits : List Edit) : Prop where
  found : ∀ e ∈ edits, (root.findNode? e.target e.kind).isSome
  apart : ∀ e ∈ edits, ∀ f ∈ edits, e ≠ f → ∀ m n, root.findNode? e.target e.kind = some m →
    root.findNode? f.target f.kind = some n → m.fullSpan.overlaps n.fullSpan = false

/-- No edit is located twice. -/
theorem pairwise_edit_ne {document : DocumentId} {root : Node} {edits : List Edit}
    {located : List Located}
    (hloc : locateEdits document root (distinctEdits edits) = .ok located) :
    located.Pairwise fun a b => a.edit ≠ b.edit := by
  have hnodup := nodup_distinctEdits edits
  rwa [← (locateEdits_ok hloc).1, List.Nodup, List.pairwise_map] at hnodup

theorem Applicable.pairwise_apart {document : DocumentId} {root : Node} {edits : List Edit}
    {located : List Located} (h : Applicable root edits)
    (hloc : locateEdits document root (distinctEdits edits) = .ok located) :
    located.Pairwise Located.Apart := by
  obtain ⟨hmap, hall⟩ := locateEdits_ok hloc
  have hedit : ∀ {l}, l ∈ located → l.edit ∈ edits := fun {l} hl =>
    (mem_distinctEdits edits _).1 (hmap ▸ List.mem_map_of_mem hl)
  refine (pairwise_edit_ne hloc).imp_of_mem fun {a b} ha hb hab => ?_
  obtain ⟨m, hm, hma⟩ := hall a ha
  obtain ⟨n, hn, hnb⟩ := hall b hb
  rw [Located.Apart, hma, hnb]
  exact h.apart a.edit (hedit ha) b.edit (hedit hb) hab m n hm hn

/-- Located edits and the edits themselves ask for the same changes. -/
theorem mem_changesOf {root : Tree} {edits : List Edit} {located : List Located}
    (hall : ∀ l ∈ located, l.Holds (.root root))
    (hedits : ∀ e, e ∈ located.map Located.edit ↔ e ∈ edits) (c : TextChange) :
    c ∈ located.map Located.change ↔ c ∈ changesOf root edits := by
  rw [List.mem_map, changesOf, List.mem_filterMap]
  constructor
  · rintro ⟨l, hl, rfl⟩
    obtain ⟨n, hn, hfull⟩ := hall l hl
    refine ⟨l.edit, (hedits l.edit).1 (List.mem_map_of_mem hl), ?_⟩
    rw [hn, Located.change, hfull]
    rfl
  · rintro ⟨e, he, hc⟩
    rw [← hedits, List.mem_map] at he
    obtain ⟨l, hl, rfl⟩ := he
    obtain ⟨n, hn, hfull⟩ := hall l hl
    rw [hn, Option.map_some, Option.some.injEq] at hc
    exact ⟨l, hl, by rw [← hc, Located.change, hfull]⟩

/-- The accepted edits are applied, and splice the text. -/
theorem applyEdits_splice_of_acceptEdits {document : DocumentId} {policy : OverlapPolicy}
    {root : Tree} {edits applied : List Edit} {located accepted : List Located}
    (hloc : locateEdits document (.root root) (distinctEdits edits) = .ok located)
    (haccept : acceptEdits document policy [] (stableSort Located.order located) = .ok accepted)
    (htext : ∀ e ∈ edits, e.HasText)
    (happlied : ∀ e, e ∈ accepted.map Located.edit ↔ e ∈ applied) :
    ∃ new, applyEdits document root edits policy = .ok new ∧
      new.fullChars = splice (changesOf root applied) 0 root.fullChars := by
  obtain ⟨hmap, hall⟩ := locateEdits_ok hloc
  have hedit : ∀ l ∈ located, l.edit.HasText := fun l hl =>
    htext _ ((mem_distinctEdits edits _).1 (hmap ▸ List.mem_map_of_mem hl))
  have hlt : ∀ l ∈ located, l.full.start < l.full.stop := fun l hl =>
    (hall l hl).start_lt (hedit l hl).1
  obtain ⟨hmem, hsorted⟩ := pairwise_stop_le_of_acceptEdits hlt haccept
  have hreverse : ∀ l ∈ accepted.reverse, l ∈ located := fun l hl => hmem l (List.mem_reverse.1 hl)
  obtain ⟨new, hnew, hchars⟩ := replaceTargets_splice document accepted.reverse root
    (fun l hl => hall l (hreverse l hl)) (fun l hl => hedit l (hreverse l hl))
    (List.pairwise_reverse.2 hsorted)
  refine ⟨new, ?_, ?_⟩
  · unfold applyEdits
    rw [hloc]
    simp only [bind, Except.bind, haccept]
    exact hnew
  · rw [hchars]
    apply splice_congr
    · intro c
      rw [List.map_reverse, List.mem_reverse]
      exact mem_changesOf (fun l hl => hall l (hmem l hl)) happlied c
    · -- two changes that start together come from edits that overlap, hence from one edit
      intro c hc d hd hstart
      obtain ⟨k, hk, rfl⟩ := List.mem_map.1 hc
      obtain ⟨l, hl, rfl⟩ := List.mem_map.1 hd
      rw [eq_of_start_eq (fun l hl => hlt l (hmem l hl)) hsorted k (List.mem_reverse.1 hk) l
        (List.mem_reverse.1 hl) hstart]

/-- Edits that can be applied are applied, and splice the text. -/
theorem Applicable.applyEdits_splice (document : DocumentId) {root : Tree} {edits : List Edit}
    (h : Applicable (.root root) edits) (htext : ∀ e ∈ edits, e.HasText) :
    ∃ new, applyEdits document root edits .reject = .ok new ∧
      new.fullChars = splice (changesOf root edits) 0 root.fullChars := by
  have hfound : ∀ e ∈ distinctEdits edits, ((Node.root root).findNode? e.target e.kind).isSome :=
    fun e he => h.found e ((mem_distinctEdits edits e).1 he)
  obtain ⟨located, hloc⟩ := exists_locateEdits document hfound
  have hperm := stableSort_perm Located.order located
  have hapart : (stableSort Located.order located).Pairwise Located.Apart :=
    hperm.symm.pairwise (h.pairwise_apart hloc) Located.Apart.symm
  have haccept : acceptEdits document .reject [] (stableSort Located.order located) =
      .ok (stableSort Located.order located) :=
    (acceptEdits_reject_iff .nil).2 ⟨rfl, hapart⟩
  refine applyEdits_splice_of_acceptEdits hloc haccept htext fun e => ?_
  rw [(hperm.map Located.edit).mem_iff, (locateEdits_ok hloc).1, mem_distinctEdits]

/-- Only such edits are applied. -/
theorem applicable_of_applyEdits {document : DocumentId} {root new : Tree} {edits : List Edit}
    (h : applyEdits document root edits .reject = .ok new) : Applicable (.root root) edits := by
  unfold applyEdits at h
  cases hloc : locateEdits document (.root root) (distinctEdits edits) with
  | error err =>
    rw [hloc] at h
    cases h
  | ok located =>
    rw [hloc] at h
    simp only [bind, Except.bind] at h
    cases hacc : acceptEdits document .reject [] (stableSort Located.order located) with
    | error err =>
      rw [hacc] at h
      cases h
    | ok accepted =>
      obtain ⟨hmap, hall⟩ := locateEdits_ok hloc
      have hperm := stableSort_perm Located.order located
      have hapart : located.Pairwise Located.Apart :=
        hperm.pairwise ((acceptEdits_reject_iff .nil).1 hacc).2 Located.Apart.symm
      have hlocated : ∀ e ∈ edits, ∃ l ∈ located, l.edit = e := fun e he => by
        rwa [← mem_distinctEdits, ← hmap, List.mem_map] at he
      refine ⟨fun e he => ?_, fun e he f hf hne m n hm hn => ?_⟩
      · obtain ⟨l, hl, rfl⟩ := hlocated e he
        obtain ⟨n, hn, -⟩ := hall l hl
        rw [hn]
        rfl
      · obtain ⟨k, hk, rfl⟩ := hlocated e he
        obtain ⟨l, hl, rfl⟩ := hlocated f hf
        obtain ⟨m', hm', hkfull⟩ := hall k hk
        obtain ⟨n', hn', hlfull⟩ := hall l hl
        rw [hm, Option.some.injEq] at hm'
        rw [hn, Option.some.injEq] at hn'
        rw [hm', hn', ← hkfull, ← hlfull]
        have hsym : located.Pairwise fun a b => a.edit ≠ b.edit → a.Apart b :=
          hapart.imp fun {a b} h (_ : a.edit ≠ b.edit) => h
        exact hsym.forall_of_forall_of_flip (fun a _ ha => absurd rfl ha)
          (hapart.imp fun {a b} h (_ : b.edit ≠ a.edit) => h.symm) hk hl hne

/-! ## Top theorem -/

/-- Edits are applied exactly when all of them are found and different ones stay apart; the text is
then the old one with all located nodes replaced at once. -/
theorem applyEdits_reject_iff_and_fullText (document : DocumentId) (root : Tree) (edits : List Edit)
    (targets : ∀ e ∈ edits, e.target.start < e.target.stop)
    (replacements : ∀ e ∈ edits, e.replacement.text ≠ "") :
    ((∃ new, applyEdits document root edits .reject = .ok new) ↔ Applicable (.root root) edits) ∧
      ∀ new, applyEdits document root edits .reject = .ok new →
        new.fullText = String.ofList (splice (changesOf root edits) 0 root.fullText.toList) := by
  have htext : ∀ e ∈ edits, e.HasText := fun e he => ⟨targets e he, replacements e he⟩
  refine ⟨⟨fun ⟨new, h⟩ => applicable_of_applyEdits h, fun h => ?_⟩, fun new hnew => ?_⟩
  · obtain ⟨new, hnew, -⟩ := h.applyEdits_splice document htext
    exact ⟨new, hnew⟩
  · obtain ⟨new', hnew', hchars⟩ := (applicable_of_applyEdits hnew).applyEdits_splice document htext
    rw [hnew, Except.ok.injEq] at hnew'
    rw [hnew', Tree.fullText, hchars, Tree.fullText, String.toList_ofList]

/-- A name with trivia behind it. -/
def sampleName (name : String) (trailing : List Trivia) : Tree :=
  .node .identifierName [.token ⟨.identifier, name, [], trailing⟩]

/-- `a + b;` -/
def sampleSum : Tree :=
  .node .expressionStatement
    [.node .addExpression
      [sampleName "a" [.space], .token ⟨.plus, "+", [], [.space]⟩, sampleName "b" []],
      .token (.ofKind .semicolon)]

/-- Both names replaced, the right one first and once more at the end. -/
def sampleEdits : List Edit :=
  [⟨⟨4, 5⟩, .identifierName, sampleName "right" []⟩,
   ⟨⟨0, 1⟩, .identifierName, sampleName "left" [.space]⟩,
   ⟨⟨4, 5⟩, .identifierName, sampleName "right" []⟩]

theorem applyEdits_reject_sampleSum :
    (∀ e ∈ sampleEdits, e.target.start < e.target.stop) ∧
      (∀ e ∈ sampleEdits, e.replacement.text ≠ "") ∧
      ∃ new, applyEdits ⟨"A.cs"⟩ sampleSum sampleEdits .reject = .ok new ∧
        new.fullText = "left + right;" := by
  have targets : ∀ e ∈ sampleEdits, e.target.start < e.target.stop := by decide
  have replacements : ∀ e ∈ sampleEdits, e.replacement.text ≠ "" := by decide +kernel
  obtain ⟨new, hnew⟩ : ∃ new, applyEdits ⟨"A.cs"⟩ sampleSum sampleEdits .reject = .ok new :=
    ⟨_, rfl⟩
  refine ⟨targets, replacements, new, hnew, ?_⟩
  rw [(applyEdits_reject_iff_and_fullText _ _ _ targets replacements).2 new hnew]
  decide +kernel

end SharpLint
