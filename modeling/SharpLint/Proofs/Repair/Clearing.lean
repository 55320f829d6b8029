import SharpLint.Proofs.Repair.Cleared
import SharpLint.Proofs.Rule.DueNodes

/-!
# Edits that clear a tree

Some edits are made from right to left. Each of them clears its target, and every place that is due for
the cause of the batch is the target of an edit still to come (`Clearing`). This holds until no edit is
left, and then nothing is due (`Clearing.run`). Where nothing was due for another cause, nothing becomes
due for it.
-/

namespace SharpLint

open SharpLint.Tree Skeleton

variable {scope : Scope} {start : String} {cause : Cause} {root : Tree}

/-- Nothing in the tree is due for the cause. -/
def Tree.Free (scope : Scope) (start : String) (cause : Cause) (t : Tree) : Prop :=
  ¬ Has scope start cause .root (Node.root t).tree.skeleton

/-- The edit clears its target, and stands where no type is around it. -/
def Edit.ClearsDue (scope : Scope) (start : String) (cause : Cause) (root : Tree) (e : Edit) : Prop :=
  ∃ n, (Node.root root).findNode? e.target e.kind = some n ∧ Replaced.IsSite n ∧
    n.kind ≠ .modifierList ∧
    Skeleton.Clears scope start cause (n.situation scope start root) n.tree.skeleton
      e.replacement.skeleton

/-- Edits from right to left that clear what is due for the cause. -/
structure Clearing (scope : Scope) (start : String) (cause : Cause) (root : Tree)
    (edits : List Located) : Prop where
  fits : FitsFromRight root edits
  plain : (Node.root root).tree.skeleton.plainTypes = true
  clears : ∀ l ∈ edits, l.edit.ClearsDue scope start cause root
  covers : ∀ path, DueAt scope start cause .root (Node.root root).tree.skeleton path →
    ∃ l ∈ edits, ∃ n, (Node.root root).findNode? l.edit.target l.edit.kind = some n ∧ n.path = path

theorem plainTypes_at? {t s : Skeleton} {path : List Nat} (h : t.at? path = some s)
    (ht : t.plainTypes = true) : s.plainTypes = true := by
  induction path generalizing t with
  | nil =>
    obtain rfl := Option.some.inj h
    exact ht
  | cons i path ih =>
    obtain ⟨head, cs, d, rfl, hd, h⟩ := at?_cons_eq_some h
    obtain ⟨-, hcs⟩ := Bool.and_eq_true_iff.mp ht
    rw [plainTypesOf_eq_all] at hcs
    exact ih h (List.all_eq_true.mp hcs d (List.mem_of_getElem? hd))

theorem Replaced.exists_node {r t t' : Tree} {above : List Frame} {offset : Nat} {n : Node}
    (h : Replaced r above offset t n t') (hr : ∃ k, r.label = .node k) : ∃ k cs, t' = .node k cs := by
  cases h with
  | here k cs =>
    obtain ⟨k, hk⟩ := hr
    exact ⟨k, exists_of_label_node hk⟩
  | child left right h => exact ⟨_, _, rfl⟩

theorem Node.Accepts.exists_kind {n : Node} {l : Label} (h : n.Accepts l) (hn : n.kind ≠ .modifierList) :
    ∃ k, l = .node k ∧ k ≠ .modifierList := by
  rcases h with rfl | ⟨⟨k, rfl, hk⟩, -⟩
  · exact ⟨n.kind, rfl, hn⟩
  · refine ⟨k, rfl, ?_⟩
    rintro rfl
    cases hk

/-- Nodes whose targets stand in front of each other are not inside each other. -/
theorem not_prefix_of_stop_le {t : Tree} {n m : Node} (hn : n.Inside t) (hm : m.Inside t)
    (hpos : m.span.start < m.span.stop) (hle : m.fullSpan.stop ≤ n.fullSpan.start) :
    ¬ n.path <+: m.path := by
  intro hprefix
  have hwithin := Node.within_of_mem_descendants (hm.mem_descendants_of_path hn hprefix)
  have hfull := (Span.contains_iff _ _).mp m.contains_span
  simp only [Node.fullSpan, Span.ofLength] at hfull hle
  omega

/-! ## One edit -/

namespace Clearing

variable {l : Located} {edits : List Located} {n : Node}

/-- The target is replaced in the skeleton by what clears it. -/
theorem exists_put (h : Clearing scope start cause root (l :: edits))
    (hn : (Node.root root).findNode? l.edit.target l.edit.kind = some n) :
    Skeleton.Clears scope start cause (n.situation scope start root) n.tree.skeleton
        l.edit.replacement.skeleton ∧
      Put n.tree.skeleton l.edit.replacement.skeleton n.path (Node.root root).tree.skeleton
        (Node.root (n.replaceWith l.edit.replacement)).tree.skeleton := by
  obtain ⟨m, hm, hsite, hkind, hclears⟩ := h.clears l List.mem_cons_self
  obtain rfl := Option.some.inj (hn.symm.trans hm)
  obtain ⟨n', hn', haccepts⟩ := (h.fits.fits l List.mem_cons_self).accepts
  obtain rfl := Option.some.inj (hn.symm.trans hn')
  obtain ⟨k, hk, hother⟩ := haccepts.exists_kind hkind
  have hreplaced := Node.replaced_of_findNode? l.edit.replacement hn
  obtain ⟨frames, habove, hput⟩ := hreplaced.put (sound_tree_root h.fits.sound).shaped h.plain hkind
    (fun hlabel => hother (Label.node.inj (hk.symm.trans hlabel))) hsite
  obtain ⟨k', cs', hnode⟩ := hreplaced.exists_node ⟨k, hk⟩
  rw [List.append_nil] at habove
  rw [← habove] at hput
  rw [hnode] at hput ⊢
  exact ⟨hclears, hput⟩

/-- What is due after an edit was due before and is not at the target, or something below the target was
due, or something was for another cause. -/
theorem dueAt_cases (h : Clearing scope start cause root (l :: edits))
    (hn : (Node.root root).findNode? l.edit.target l.edit.kind = some n) {other : Cause}
    {path : List Nat} (hdue : DueAt scope start other .root
      (Node.root (n.replaceWith l.edit.replacement)).tree.skeleton path) :
    (DueAt scope start other .root (Node.root root).tree.skeleton path ∧ ¬ n.path <+: path) ∨
      (∃ i below, DueAt scope start other .root (Node.root root).tree.skeleton
        (n.path ++ i :: below)) ∨
      other ≠ cause ∧ Has scope start other .root (Node.root root).tree.skeleton := by
  obtain ⟨hclears, hput⟩ := h.exists_put hn
  obtain ⟨-, hplace, hbeside⟩ := hput.carry hclears.alike
  obtain ⟨hold, hnew⟩ := hput.at?_eq
  by_cases hprefix : n.path <+: path
  · obtain ⟨below, rfl⟩ := hprefix
    rw [dueAt_append hnew, hplace] at hdue
    rcases hclears.due other ⟨below, hdue⟩ with hbelow | ⟨hother, q, hq⟩
    · obtain ⟨i, q, hq⟩ := hbelow.exists_path
      exact .inr (.inl ⟨i, q, (dueAt_append hold _ other).mpr hq⟩)
    · exact .inr (.inr ⟨hother, _, (dueAt_append hold _ other).mpr hq⟩)
  · exact .inl ⟨((hbeside path hprefix).2 other).mp hdue, hprefix⟩

/-- The targets still to come are not below the one that is replaced. -/
theorem not_prefix (h : Clearing scope start cause root (l :: edits))
    (hn : (Node.root root).findNode? l.edit.target l.edit.kind = some n) {k : Located} (hk : k ∈ edits)
    {m : Node} (hm : (Node.root root).findNode? k.edit.target k.edit.kind = some m) :
    ¬ n.path <+: m.path := by
  obtain ⟨n', hn', hfull⟩ := h.fits.holds l List.mem_cons_self
  obtain rfl := Option.some.inj (hn.symm.trans hn')
  obtain ⟨m', hm', hkfull⟩ := h.fits.holds k (List.mem_cons_of_mem l hk)
  obtain rfl := Option.some.inj (hm.symm.trans hm')
  have hle := (List.pairwise_cons.mp h.fits.sorted).1 k hk
  rw [hfull, hkfull] at hle
  have htarget := (h.fits.fits k (List.mem_cons_of_mem l hk)).target
  rw [← (Node.kind_span_of_findNode? hm).2] at htarget
  exact not_prefix_of_stop_le (.of_findNode? hn) (.of_findNode? hm) htarget hle

/-- One edit is made, and the others clear the new tree. -/
theorem step (h : Clearing scope start cause root (l :: edits)) :
    ∃ n, (Node.root root).findNode? l.edit.target l.edit.kind = some n ∧
      Clearing scope start cause (n.replaceWith l.edit.replacement) edits ∧
      ∀ other, other ≠ cause → root.Free scope start other →
        (n.replaceWith l.edit.replacement).Free scope start other := by
  obtain ⟨n, hn, -, hfits, hstays⟩ := h.fits.step
  obtain ⟨hclears, hput⟩ := h.exists_put hn
  obtain ⟨-, -, hbeside⟩ := hput.carry hclears.alike
  refine ⟨n, hn, ⟨hfits, ?_, fun k hk => ?_, fun path hdue => ?_⟩, fun other hother hfree => ?_⟩
  · exact hput.plainTypes (hclears.plainTypes (plainTypes_at? hput.at?_eq.1 h.plain)) h.plain
  · -- a target still to come is found again, in the same situation
    obtain ⟨m, hm, hsite, hkind, hmclears⟩ := h.clears k (List.mem_cons_of_mem l hk)
    obtain ⟨m', m'', hm', hm'', hsame⟩ := hstays k hk
    obtain rfl := Option.some.inj (hm.symm.trans hm')
    have hsituation : m''.situation scope start (n.replaceWith l.edit.replacement) =
        m.situation scope start root := by
      rw [Node.situation, Node.path_eq_of_place hsame]
      exact (hbeside m.path (h.not_prefix hn hk hm)).1
    have hkinds := Node.kinds_eq_of_place hsame
    simp only [Node.place, Prod.mk.injEq] at hsame
    refine ⟨m'', hm'', ?_, hsame.1 ▸ hkind, ?_⟩
    · unfold Replaced.IsSite
      rw [hsame.1, hkinds]
      exact hsite
    · rw [hsituation, Node.tree, hsame.1, hsame.2.1]
      exact hmclears
  · -- what is due is the target of another edit
    have hothers {q : List Nat} (hq : DueAt scope start cause .root (Node.root root).tree.skeleton q)
        (hne : q ≠ n.path) : ∃ k ∈ edits, ∃ m, (Node.root root).findNode? k.edit.target k.edit.kind =
          some m ∧ m.path = q := by
      obtain ⟨k, hk, m, hm, rfl⟩ := h.covers q hq
      rcases List.mem_cons.mp hk with rfl | hk
      · rw [Option.some.inj (hm.symm.trans hn)] at hne
        exact absurd rfl hne
      · exact ⟨k, hk, m, hm, rfl⟩
    rcases h.dueAt_cases hn hdue with ⟨hold, hprefix⟩ | ⟨i, below, hbelow⟩ | ⟨hother, -⟩
    · obtain ⟨k, hk, m, hm, rfl⟩ := hothers hold fun heq => hprefix (heq ▸ List.prefix_refl _)
      obtain ⟨m', m'', hm', hm'', hsame⟩ := hstays k hk
      obtain rfl := Option.some.inj (hm.symm.trans hm')
      exact ⟨k, hk, m'', hm'', Node.path_eq_of_place hsame⟩
    · obtain ⟨k, hk, m, hm, hpath⟩ := hothers hbelow fun heq => by
        have hlength := congrArg List.length heq
        simp at hlength
      exact absurd (hpath ▸ List.prefix_append _ _) (h.not_prefix hn hk hm)
    · exact absurd rfl hother
  · rintro ⟨path, hdue⟩
    rcases h.dueAt_cases hn hdue with ⟨hold, -⟩ | ⟨i, below, hbelow⟩ | ⟨-, hhas⟩
    · exact hfree ⟨_, hold⟩
    · exact hfree ⟨_, hbelow⟩
    · exact hfree hhas

/-- After all edits nothing is due for the cause, and nothing has become due for another one. -/
theorem run (h : Clearing scope start cause root edits) (document : DocumentId) {new : Tree}
    (hok : replaceTargets document root (edits.map Located.edit) = .ok new) :
    new.Free scope start cause ∧ (Node.root new).tree.skeleton.plainTypes = true ∧
      ∀ other, other ≠ cause → root.Free scope start other → new.Free scope start other := by
  induction edits generalizing root with
  | nil =>
    obtain rfl := Except.ok.inj hok
    refine ⟨?_, h.plain, fun other _ hfree => hfree⟩
    rintro ⟨path, hdue⟩
    obtain ⟨l, hl, -⟩ := h.covers path hdue
    cases hl
  | cons l edits ih =>
    obtain ⟨n, hn, hlater, hkeeps⟩ := h.step
    rw [List.map_cons, replaceTargets_cons document hn] at hok
    obtain ⟨hfree, hplain, hothers⟩ := ih hlater hok
    exact ⟨hfree, hplain, fun other hother hold => hothers other hother (hkeeps other hother hold)⟩

end Clearing

end SharpLint
