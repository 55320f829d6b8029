import SharpLint.Proofs.Engine.Diagnostics

/-!
# A batch fixes all diagnostics of a code, or reports an overlap

For a code that can be fixed and a snapshot of source texts, a batch counts one fix for each
diagnostic of the code and leaves a sound snapshot, or two edits overlap and overlaps are refused:

    fixAll s host code = .ok b  with  b.fixed = (withCode code).length
    fixAll s host code = .error (.apply (.overlap …))  under  reject        (fixAll_ok_or_overlap)

No other error arises: every diagnostic has one fix, all fixes have one key, none leaves a declaration
unresolved, and all targets are found.
-/

namespace SharpLint.Engine

variable {s : Snapshot} {host : Host}

/-- Fixes with one key, each the only one for its diagnostic, are all chosen. -/
theorem chooseFixes_map {fixes : List Fix} {key : String} (h : ∀ fix ∈ fixes, fix.key = key) :
    chooseFixes (fixes.map fun fix => [fix]) = fixes := by
  cases fixes with
  | nil => rfl
  | cons first others =>
    have hall : ∀ fix ∈ first :: others, (fix.key == first.key) = true := by
      intro fix hfix
      rw [h fix hfix, h first List.mem_cons_self]
      exact beq_self_eq_true key
    show ((first :: others).map fun fix => [fix]).filterMap
      (fun fixes => fixes.find? (·.key == first.key)) = first :: others
    rw [List.filterMap_map, List.filterMap_eq_map_iff_forall_eq_some.mpr, List.map_id]
    intro fix hfix
    show [fix].find? (·.key == first.key) = some fix
    rw [List.find?_singleton, if_pos (hall fix hfix)]

/-- Fixes that work are merged into a set that fits. -/
theorem exists_mergeChanges {fixes : List Fix} (h : ∀ fix ∈ fixes, fix.Works s) {merged : ChangeSet}
    (hmerged : merged.Fits s) : ∃ c, mergeChanges s merged fixes = .ok c ∧ c.Fits s := by
  induction fixes generalizing merged with
  | nil => exact ⟨merged, rfl, hmerged⟩
  | cons fix fixes ih =>
    rw [List.forall_mem_cons] at h
    obtain ⟨⟨changes, hchanges, hfits⟩, h⟩ := h
    obtain ⟨c, hc, hcfits⟩ := ih h (hmerged.merge hfits)
    refine ⟨c, ?_, hcfits⟩
    simp only [mergeChanges, hchanges, bind, Except.bind, if_pos hfits.isComplete, hc]

theorem mergeChanges_cons {merged c : ChangeSet} {fix : Fix} {fixes : List Fix}
    (h : mergeChanges s merged (fix :: fixes) = .ok c) :
    ∃ new, fix.changes s = .ok new ∧ mergeChanges s (merged.merge new) fixes = .ok c := by
  obtain ⟨new, hnew, h⟩ := bind_eq_ok h
  split at h
  · exact ⟨new, hnew, h⟩
  · cases h

/-- What the changes of all fixes have, and a merged set has if both sets do, all changes together
have. -/
theorem mergeChanges_rec {P : ChangeSet → Prop} (hmerge : ∀ c new, P c → P new → P (c.merge new))
    {fixes : List Fix} {merged c : ChangeSet}
    (hfixes : ∀ fix ∈ fixes, ∀ new, fix.changes s = .ok new → P new) (hmerged : P merged)
    (h : mergeChanges s merged fixes = .ok c) : P c := by
  induction fixes generalizing merged with
  | nil =>
    obtain rfl := Except.ok.inj h
    exact hmerged
  | cons fix fixes ih =>
    obtain ⟨new, hnew, h⟩ := mergeChanges_cons h
    rw [List.forall_mem_cons] at hfixes
    exact ih hfixes.2 (hmerge merged new hmerged (hfixes.1 new hnew)) h

/-- What all edits of the fixes have, those of the merged set have. -/
theorem mergeChanges_meets {P : Tree → Edit → Prop} {fixes : List Fix} {merged c : ChangeSet}
    (hfixes : ∀ fix ∈ fixes, ∀ new, fix.changes s = .ok new → new.Meets P s)
    (hmerged : merged.Meets P s) (h : mergeChanges s merged fixes = .ok c) : c.Meets P s :=
  mergeChanges_rec (fun _ _ hc hnew => hc.merge hnew) hfixes hmerged h

/-- No edit of a fix is lost. -/
theorem mergeChanges_has {fixes : List Fix} {merged c : ChangeSet}
    (h : mergeChanges s merged fixes = .ok c) {document : DocumentId} {e : Edit}
    (he : merged.Has document e ∨
      ∃ fix ∈ fixes, ∃ new, fix.changes s = .ok new ∧ new.Has document e) :
    c.Has document e := by
  induction fixes generalizing merged with
  | nil =>
    obtain rfl := Except.ok.inj h
    exact he.resolve_right fun ⟨fix, hfix, _⟩ => nomatch hfix
  | cons fix fixes ih =>
    obtain ⟨new, hnew, h⟩ := mergeChanges_cons h
    refine ih h ?_
    obtain he | ⟨other, hother, new', hnew', he⟩ := he
    · exact .inl (he.merge_left new)
    · rcases List.mem_cons.mp hother with rfl | hother
      · obtain rfl := Except.ok.inj (hnew.symm.trans hnew')
        exact .inl (he.merge_right merged)
      · exact .inr ⟨other, hother, new', hnew', he⟩

/-- The fixes of diagnostics that are served. -/
theorem exists_fixes {p : Provider} {key : String} {targets : List Diagnostic}
    (h : ∀ d ∈ targets, p.Serves key s host d) :
    ∃ fixes : List Fix, targets.map (p.propose s host) = fixes.map (fun fix => [fix]) ∧
      fixes.length = targets.length ∧ ∀ fix ∈ fixes, fix.key = key ∧ fix.Works s := by
  induction targets with
  | nil => exact ⟨[], rfl, rfl, nofun⟩
  | cons d targets ih =>
    rw [List.forall_mem_cons] at h
    obtain ⟨fix, hpropose, hfix⟩ := h.1
    obtain ⟨fixes, hmap, hlength, hfixes⟩ := ih h.2
    refine ⟨fix :: fixes, ?_, ?_, List.forall_mem_cons.mpr ⟨hfix, hfixes⟩⟩
    · rw [List.map_cons, hpropose, hmap, List.map_cons]
    · rw [List.length_cons, hlength, List.length_cons]

/-- What a batch can do: fix all of `count` diagnostics and leave a sound snapshot, or refuse an
overlap. -/
def BatchOutcome (policy : OverlapPolicy) (count : Nat) (outcome : Except FixError BatchResult) : Prop :=
  (∃ b, outcome = .ok b ∧ b.fixed = count ∧ b.snapshot.Sound) ∨
    policy = .reject ∧
      ∃ document first second, outcome = .error (.apply (.overlap document first second))

/-- A batch on a sound snapshot. -/
theorem fixAll_outcome {c : Config} {code : String} (hcode : code ∈ (ofConfig c).fixableCodes)
    (hs : s.Sound) (hhost : host.Knows s) :
    BatchOutcome c.engine.overlapPolicy (((ofConfig c).analyze s host).withCode code).length
      ((ofConfig c).fixAll s host code) := by
  obtain ⟨p, key, hp, hbatches, hserves⟩ := exists_provider hcode
  obtain ⟨fixes, hmap, hlength, hfixes⟩ := exists_fixes (hserves s host hs hhost)
  have hchosen : chooseFixes ((((ofConfig c).analyze s host).withCode code).map (p.propose s host)) =
      fixes := by
    rw [hmap]
    exact chooseFixes_map fun fix hfix => (hfixes fix hfix).1
  obtain ⟨merged, hmerged, hfits⟩ :=
    exists_mergeChanges (fun fix hfix => (hfixes fix hfix).2) (ChangeSet.fits_empty s)
  have happly := s.apply_sound c.engine.overlapPolicy hs hfits
  unfold fixAll
  rw [hp]
  simp only [hbatches, hchosen, hmerged, bind, Except.bind, Snapshot.applyChanges]
  obtain ⟨updated, hok, hsound⟩ | ⟨hreject, document, first, second, herror⟩ := happly
  · refine .inl ⟨⟨updated, fixes.length, merged.documents⟩, ?_, hlength, hsound⟩
    have hok : s.apply merged (ofConfig c).config.engine.overlapPolicy = .ok updated := hok
    rw [hok]
    rfl
  · refine .inr ⟨hreject, document, first, second, ?_⟩
    have herror : s.apply merged (ofConfig c).config.engine.overlapPolicy =
        .error (.overlap document first second) := herror
    rw [herror]
    rfl

/-! ## Source texts -/

/-- To hide documents from the analysis is to leave them out of it. -/
theorem subjects_without (e : Engine) (s : Snapshot) (host : Host) (hidden : String → Bool) :
    e.subjects s (host.without hidden) =
      (e.subjects s host).filter fun subject => !hidden subject.1.id.spelling := by
  unfold subjects
  rw [List.filter_filterMap]
  congr 1
  funext d
  show ((if hidden d.id.spelling then none else host.bindings? d.id).map fun b => (d, b)) = _
  cases host.bindings? d.id with
  | none =>
    cases hidden d.id.spelling with
    | true => rfl
    | false => rfl
  | some b =>
    rw [Option.map_some, Option.filter_some]
    cases hidden d.id.spelling with
    | true => rfl
    | false => rfl

/-- For source texts that can be read, a batch of a code that can be fixed fixes every diagnostic of
the code, or refuses an overlap. This holds whatever is excluded, by the patterns of the configuration
or by any other choice of paths; where nothing else is excluded, the host is that of the workspace. -/
theorem fixAll_ok_or_overlap {config : Config} (excluded : String → Bool)
    {sources : List (String × String)} {w : Workspace} {code : String}
    (hw : Workspace.ofSources sources = .ok w) (hcode : code ∈ (ofConfig config).fixableCodes) :
    (∃ b, (ofConfig config).fixAll w.snapshot (w.host.without excluded) code = .ok b ∧
        b.fixed = (((ofConfig config).analyze w.snapshot (w.host.without excluded)).withCode
          code).length) ∨
      config.engine.overlapPolicy = .reject ∧ ∃ document first second,
        (ofConfig config).fixAll w.snapshot (w.host.without excluded) code =
          .error (.apply (.overlap document first second)) := by
  have hs := Workspace.sound_snapshot hw
  have hhost := (Workspace.knows_snapshot hw).without excluded
  obtain ⟨b, hok, hfixed, -⟩ | hrefused := fixAll_outcome hcode hs hhost
  · exact .inl ⟨b, hok, hfixed⟩
  · exact .inr hrefused

/-- Operands in parentheses, a hole with a format, and a value that is formatted in a sum. -/
def formattedSource : String :=
  "class C \x7b string M(float x) \x7b return \"a\" + ((x)) + $\"\x7bx,5:F2\x7d\" + x.ToString(); \x7d \x7d"

theorem fixAll_ok_or_overlap_formatted :
    ∃ w, Workspace.ofSources [("A.cs", formattedSource), ("B.cs", formattedSource)] = .ok w ∧
      "NG1006" ∈ (ofConfig .default).fixableCodes ∧
      ((∃ b, (ofConfig .default).fixAll w.snapshot w.host "NG1006" = .ok b ∧
          b.fixed = (((ofConfig .default).analyze w.snapshot w.host).withCode "NG1006").length) ∨
        Config.default.engine.overlapPolicy = .reject ∧ ∃ document first second,
          (ofConfig .default).fixAll w.snapshot w.host "NG1006" =
            .error (.apply (.overlap document first second))) ∧
      ((∃ b, (ofConfig .default).fixAll w.snapshot (w.host.without (· == "B.cs")) "NG1006" = .ok b ∧
          b.fixed = (((ofConfig .default).analyze w.snapshot
            (w.host.without (· == "B.cs"))).withCode "NG1006").length) ∨
        Config.default.engine.overlapPolicy = .reject ∧ ∃ document first second,
          (ofConfig .default).fixAll w.snapshot (w.host.without (· == "B.cs")) "NG1006" =
            .error (.apply (.overlap document first second))) := by
  have hread : (Workspace.ofSources
      [("A.cs", formattedSource), ("B.cs", formattedSource)]).toOption.isSome = true := by
    decide +kernel
  have hcode : "NG1006" ∈ (ofConfig .default).fixableCodes := by decide +kernel
  cases hw : Workspace.ofSources [("A.cs", formattedSource), ("B.cs", formattedSource)] with
  | error e => rw [hw] at hread; cases hread
  | ok w =>
    exact ⟨w, rfl, hcode, fixAll_ok_or_overlap (fun _ => false) hw hcode,
      fixAll_ok_or_overlap (· == "B.cs") hw hcode⟩

end SharpLint.Engine
