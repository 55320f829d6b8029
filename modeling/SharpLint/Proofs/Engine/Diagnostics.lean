import SharpLint.Engine.Repair
import SharpLint.Proofs.Repair.FormatCall
import SharpLint.Proofs.Repair.Visibility

/-!
# Where diagnostics come from

Every diagnostic of an analysis is one that a rule reported at a node of a document
(`exists_report`), and the built-in rules report findings (`exists_finding_of_code`). The codes that
can be fixed belong to one rule each, and that rule's findings are served by the provider for the code
(`exists_provider`).
-/

namespace SharpLint

/-! ## Rules and their codes -/

namespace Rule

variable {b : Bindings} {n : Node} {f : Finding}

theorem Equality.descriptor_of_check (h : f ∈ Equality.check b n) :
    f.descriptor = Equality.descriptor := by
  unfold Equality.check at h
  split at h
  · split at h
    · rw [List.mem_singleton.mp h]
      rfl
    · cases h
  · split at h
    · rw [List.mem_singleton.mp h]
      rfl
    · cases h

theorem ArrayParameter.descriptor_of_check (h : f ∈ ArrayParameter.check b n) :
    f.descriptor = ArrayParameter.descriptor := by
  unfold ArrayParameter.check at h
  split at h
  · obtain ⟨m, -, rfl⟩ := List.mem_map.mp h
    rfl
  · cases h

theorem ArrayReturn.descriptor_of_check (h : f ∈ ArrayReturn.check b n) :
    f.descriptor = ArrayReturn.descriptor := by
  unfold ArrayReturn.check at h
  split at h
  · obtain ⟨m, -, rfl⟩ := Option.map_eq_some_iff.mp (Option.mem_toList.mp h)
    rfl
  · cases h

theorem SupportNamespace.descriptor_of_check {start : String}
    (h : f ∈ SupportNamespace.check start b n) : f.descriptor = SupportNamespace.descriptor := by
  unfold SupportNamespace.check at h
  split at h
  · rw [List.mem_singleton.mp h]
  · cases h

theorem Formatting.descriptor_of_check (h : f ∈ Formatting.check b n) :
    f.descriptor = Formatting.explicitDescriptor ∨ f.descriptor = Formatting.implicitDescriptor := by
  unfold Formatting.check at h
  split at h
  · split at h
    · rw [List.mem_singleton.mp h]
      exact .inl rfl
    · cases h
  · obtain ⟨m, -, rfl⟩ := List.mem_map.mp h
    exact .inr rfl
  · obtain ⟨m, -, rfl⟩ := List.mem_map.mp h
    exact .inr rfl
  · cases h

end Rule

theorem Preset.rules_subset (preset : Preset) : preset.rules ⊆ Rule.all := by
  intro r hr
  cases preset
  all_goals
    simp only [rules, List.mem_cons, List.not_mem_nil, or_false] at hr
    simp only [Rule.all, List.mem_cons, List.not_mem_nil, or_false]
    grind

/-- The built-in rules, and what each of them looks for. -/
inductive Rule.IsBuiltIn (start : String) : Rule → (Bindings → Node → List Finding) → Prop
  | equality : IsBuiltIn start Equality.rule Equality.check
  | formatting : IsBuiltIn start Formatting.rule Formatting.check
  | arithmetic : IsBuiltIn start Arithmetic.rule Arithmetic.check
  | arrayParameter : IsBuiltIn start ArrayParameter.rule ArrayParameter.check
  | arrayReturn : IsBuiltIn start ArrayReturn.rule ArrayReturn.check
  | supportNamespace : IsBuiltIn start (SupportNamespace.rule start) (SupportNamespace.check start)

/-- The rules of a configuration are built in, with its options. -/
theorem exists_isBuiltIn {c : Config} {r : Rule} (h : r ∈ c.chosenRules) :
    ∃ find, Rule.IsBuiltIn c.supportStart r find := by
  obtain ⟨r, hr, rfl⟩ := List.mem_map.mp h
  have hall := c.chosenPreset.rules_subset hr
  simp only [Rule.all, List.mem_cons, List.not_mem_nil, or_false] at hall
  rcases hall with rfl | rfl | rfl | rfl | rfl | rfl
  · rw [if_neg (by decide)]
    exact ⟨_, .equality⟩
  · rw [if_neg (by decide)]
    exact ⟨_, .formatting⟩
  · rw [if_neg (by decide)]
    exact ⟨_, .arithmetic⟩
  · rw [if_neg (by decide)]
    exact ⟨_, .arrayParameter⟩
  · rw [if_neg (by decide)]
    exact ⟨_, .arrayReturn⟩
  · rw [if_pos (by decide)]
    exact ⟨_, .supportNamespace⟩

namespace Rule.IsBuiltIn

variable {start code : String} {r : Rule} {find : Bindings → Node → List Finding}

/-- A built-in rule reports what it finds. -/
theorem check_eq (h : IsBuiltIn start r find) : r.check = reporting r.name find := by
  cases h
  all_goals rfl

/-- Every finding has a wording of its rule. -/
theorem reports_of_find (h : IsBuiltIn start r find) {b : Bindings} {n : Node} {f : Finding}
    (hf : f ∈ find b n) : r.reports f.descriptor.code = true := by
  have hmem : f.descriptor ∈ r.descriptors := by
    cases h with
    | equality => exact List.mem_singleton.mpr (Equality.descriptor_of_check hf)
    | formatting =>
      rcases Formatting.descriptor_of_check hf with h | h
      · exact List.mem_cons.mpr (.inl h)
      · exact List.mem_cons_of_mem _ (List.mem_singleton.mpr h)
    | arithmetic =>
      rw [List.mem_singleton.mp hf]
      exact List.mem_singleton.mpr rfl
    | arrayParameter => exact List.mem_singleton.mpr (ArrayParameter.descriptor_of_check hf)
    | arrayReturn => exact List.mem_singleton.mpr (ArrayReturn.descriptor_of_check hf)
    | supportNamespace => exact List.mem_singleton.mpr (SupportNamespace.descriptor_of_check hf)
  exact List.any_eq_true.mpr ⟨f.descriptor, hmem, beq_self_eq_true _⟩

/-- The codes that can be fixed belong to one rule each. -/
theorem eq_of_reports (hr : IsBuiltIn start r find) (h : r.reports code = true) :
    (code ∈ [Formatting.explicitDescriptor.code, Formatting.implicitDescriptor.code] →
        r = Formatting.rule ∧ find = Formatting.check) ∧
      (code ∈ [SupportNamespace.descriptor.code] →
        r = SupportNamespace.rule start ∧ find = SupportNamespace.check start) := by
  obtain ⟨descriptor, hmem, hcode⟩ := List.any_eq_true.mp h
  obtain rfl := beq_iff_eq.mp hcode
  cases hr with
  | formatting =>
    refine ⟨fun _ => ⟨rfl, rfl⟩, fun h => absurd h ?_⟩
    rcases List.mem_cons.mp hmem with rfl | hmem
    · decide
    · obtain rfl := List.mem_singleton.mp hmem
      decide
  | supportNamespace =>
    obtain rfl := List.mem_singleton.mp hmem
    exact ⟨fun h => absurd h (by decide), fun _ => ⟨rfl, rfl⟩⟩
  | _ =>
    obtain rfl := List.mem_singleton.mp hmem
    exact ⟨fun h => absurd h (by decide), fun h => absurd h (by decide)⟩

end Rule.IsBuiltIn

/-! ## Diagnostics and findings -/

namespace Engine

variable {e : Engine} {s : Snapshot} {host : Host} {d : Diagnostic}

theorem mem_rulesFor {kind : NodeKind} {r : Rule} (h : r ∈ e.rulesFor kind) : r ∈ e.rules := by
  obtain ⟨index, -, h⟩ := List.mem_filterMap.mp h
  exact List.mem_of_getElem? h

/-- The configuration changes the severity of a diagnostic at most. -/
theorem of_mem_overrideSeverity {r : Rule} {ds : List Diagnostic} (h : d ∈ e.overrideSeverity r ds) :
    ∃ d' ∈ ds, d.code = d'.code ∧ d.location = d'.location := by
  unfold overrideSeverity at h
  split at h
  · exact ⟨d, h, rfl, rfl⟩
  · obtain ⟨d', hd', rfl⟩ := List.mem_map.mp h
    exact ⟨d', hd', rfl, rfl⟩

/-- A directive changes the help of a diagnostic at most. -/
theorem of_withDirective {text : List Char} {r : Rule} {d' : Diagnostic}
    (h : withDirective text r d' = some d) : d.code = d'.code ∧ d.location = d'.location := by
  unfold withDirective at h
  split at h
  · obtain rfl := Option.some.inj h
    exact ⟨rfl, rfl⟩
  · split at h
    · obtain rfl := Option.some.inj h
      exact ⟨rfl, rfl⟩
    · cases h

/-- A diagnostic is one that a rule reported at a node of a document, its severity and help apart. -/
theorem exists_report (h : d ∈ (e.analyze s host).diagnostics) :
    ∃ document b r n d', document ∈ s.documents ∧ host.bindings? document.id = some b ∧ r ∈ e.rules ∧
      n.Inside document.root ∧ d' ∈ r.check ⟨n, document.id, document.chars, b, r.severity⟩ ∧
      d.code = d'.code ∧ d.location = d'.location := by
  obtain ⟨⟨document, b⟩, hsubject, h⟩ :=
    List.mem_flatMap.mp ((stableSort_perm Diagnostic.order _).mem_iff.mp h)
  obtain ⟨n, hn, h⟩ := List.mem_flatMap.mp ((stableSort_perm Diagnostic.orderInDocument _).mem_iff.mp h)
  obtain ⟨r, hr, h⟩ := List.mem_flatMap.mp h
  obtain ⟨kept, hkept, hdirective⟩ := List.mem_filterMap.mp h
  obtain ⟨hcode, hlocation⟩ := of_withDirective hdirective
  obtain ⟨d', hd', hcode', hlocation'⟩ := of_mem_overrideSeverity hkept
  obtain ⟨document', hmem, hsome⟩ := List.mem_filterMap.mp hsubject
  obtain ⟨b', hb', hpair⟩ := Option.map_eq_some_iff.mp hsome
  obtain ⟨rfl, rfl⟩ := Prod.mk.inj hpair
  exact ⟨_, _, r, n, d', (List.mem_filter.mp hmem).1, hb', mem_rulesFor hr, .of_mem_descendants hn,
    hd', hcode.trans hcode', hlocation.trans hlocation'⟩

/-- A diagnostic with a code tells of a finding of a built-in rule that reports the code. -/
theorem exists_finding_of_code {c : Config} {code : String}
    (hd : d ∈ ((ofConfig c).analyze s host).withCode code) :
    ∃ document b r find n f, Rule.IsBuiltIn c.supportStart r find ∧ r.reports code = true ∧
      n.Inside document.root ∧ f ∈ find b n ∧ d.Reports s host document b f := by
  obtain ⟨hreported, heq⟩ := List.mem_filter.mp hd
  obtain rfl := beq_iff_eq.mp heq
  obtain ⟨document, b, r, n, d', hmem, hb, hr, hn, hd', hcode, hlocation⟩ := exists_report hreported
  obtain ⟨find, hfind⟩ := exists_isBuiltIn hr
  rw [hfind.check_eq] at hd'
  obtain ⟨f, hf, rfl⟩ := List.mem_map.mp hd'
  refine ⟨document, b, r, find, n, f, hfind, ?_, hn, hf, hmem, hb, hcode, by rw [hlocation]; rfl,
    by rw [hlocation]; rfl⟩
  rw [hcode]
  exact hfind.reports_of_find hf

/-- A diagnostic about formatting tells of a finding of the rule for it. -/
theorem exists_formatting_finding {c : Config} (hd : d ∈ ((ofConfig c).analyze s host).diagnostics)
    (hcode : d.code ∈ [Rule.Formatting.explicitDescriptor.code,
      Rule.Formatting.implicitDescriptor.code]) :
    ∃ document b n f, n.Inside document.root ∧ f ∈ Rule.Formatting.check b n ∧
      d.Reports s host document b f := by
  have hmem : d ∈ ((ofConfig c).analyze s host).withCode d.code :=
    List.mem_filter.mpr ⟨hd, beq_self_eq_true _⟩
  obtain ⟨document, b, r, find, n, f, hr, hreports, hn, hf, hd⟩ := exists_finding_of_code hmem
  obtain ⟨rfl, rfl⟩ := (hr.eq_of_reports hreports).1 hcode
  exact ⟨document, b, n, f, hn, hf, hd⟩

/-! ## Providers -/

/-- A code that can be fixed has a provider, and that serves every diagnostic of the code. -/
theorem exists_provider {c : Config} {code : String} (hcode : code ∈ (ofConfig c).fixableCodes) :
    ∃ p key, (ofConfig c).providers.find? (·.handles code) = some p ∧ p.inBatches = true ∧
      ∀ s host, s.Sound → host.Knows s →
        ∀ d ∈ ((ofConfig c).analyze s host).withCode code, p.Serves key s host d := by
  have hcodes : code ∈ [Rule.Formatting.explicitDescriptor.code,
      Rule.Formatting.implicitDescriptor.code, Rule.SupportNamespace.descriptor.code] :=
    (stableSort_perm compareText _).mem_iff.mp (List.mem_eraseDups.mp hcode)
  by_cases hformat : code ∈ [Rule.Formatting.explicitDescriptor.code,
      Rule.Formatting.implicitDescriptor.code]
  · refine ⟨Repair.FormatCall.provider c.formatModule, Repair.FormatCall.key, ?_, rfl, ?_⟩
    · exact List.find?_cons_of_pos (List.contains_iff_mem.mpr hformat)
    · intro s host hs _ d hd
      obtain ⟨document, b, r, find, n, f, hr, hcode, hn, hf, hd⟩ := exists_finding_of_code hd
      obtain ⟨rfl, rfl⟩ := (hr.eq_of_reports hcode).1 hformat
      exact Repair.FormatCall.serves c.formatModule hs hd hn hf
  · have hsupport : code ∈ [Rule.SupportNamespace.descriptor.code] := by
      simp only [List.mem_cons, List.not_mem_nil, or_false] at hcodes hformat ⊢
      grind
    refine ⟨Repair.Visibility.provider, Repair.Visibility.key, ?_, rfl, ?_⟩
    · refine (List.find?_cons_of_neg ?_).trans
        (List.find?_cons_of_pos (List.contains_iff_mem.mpr hsupport))
      rwa [Provider.handles, List.contains_iff_mem]
    · intro s host hs hhost d hd
      obtain ⟨document, b, r, find, n, f, hr, hcode, hn, hf, hd⟩ := exists_finding_of_code hd
      obtain ⟨rfl, rfl⟩ := (hr.eq_of_reports hcode).2 hsupport
      exact Repair.Visibility.serves hs hhost hd hn hf

end Engine

end SharpLint
