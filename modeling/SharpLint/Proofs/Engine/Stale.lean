import SharpLint.Proofs.Engine.Called

/-!
# Stale fixes for calls

A fix for a call keeps the span of the call and looks for a call there when it is made. In a snapshot
that has changed it finds no call, or the call of something that is not a member, and is refused; or it
finds the call of a member and rewrites that one (`exists_call_of_changes`). It does not ask for the
name of the member again. So a fix leaves everything but calls of `ToString` alone exactly where the
call that now has the span is not one of another member (`spares_iff`).
-/

namespace SharpLint.Repair.FormatCall

open Engine

/-- The node is a call of a member of the name. -/
def callsMember (name : String) (n : Node) : Bool :=
  n.kind == .invocationExpression && (n.childNode? 0).any fun m =>
    m.memberAccess?.any (·.nameText == name)

/-- The fix is refused, or makes one edit, of a call of `ToString`. -/
def Spares (fix : Fix) (s : Snapshot) : Prop :=
  (∃ e, fix.changes s = .error e) ∨ ∃ document n r, s.find? fix.document = some document ∧
    document.rootNode.findNode? n.span n.kind = some n ∧ callsMember "ToString" n = true ∧
    fix.changes s = .ok (.single fix.document (.ofNode n r))

/-- The site of a call at a span. -/
def callSite (document : DocumentId) (target : Span) (callee : String) : Site :=
  ⟨document, target, .invocationExpression, .call, callee⟩

variable {s : Snapshot} {host : Host} {d : Diagnostic} {fix : Fix} {document : DocumentId}
  {target : Span} {callee : String}

/-! ## What a fix keeps -/

/-- A fix for a call keeps the place of the call. -/
theorem exists_callSite {module : String} (hcode : d.code = Rule.Formatting.explicitDescriptor.code)
    (hfix : fix ∈ (provider module).propose s host d) :
    ∃ member call kind, s.reportedNode? d = some member ∧ member.parent? = some call ∧
      call.kind = .invocationExpression ∧
      fix.changes = (callSite fix.document call.span (calleeFor module kind)).changes := by
  obtain ⟨member, hmember, hfix⟩ := Option.bind_eq_some_iff.mp (Option.mem_toList.mp hfix)
  obtain ⟨b, -, hfix⟩ := Option.bind_eq_some_iff.mp hfix
  rw [if_pos hcode] at hfix
  obtain ⟨c, hc, hfix⟩ := Option.bind_eq_some_iff.mp hfix
  obtain ⟨info, -, hfix⟩ := Option.bind_eq_some_iff.mp hfix
  obtain ⟨kind, -, hfix⟩ := Option.bind_eq_some_iff.mp hfix
  obtain rfl := Option.some.inj hfix
  obtain ⟨receiver, -, hc⟩ := Option.bind_eq_some_iff.mp hc
  obtain ⟨call, hcall, hc⟩ := Option.bind_eq_some_iff.mp hc
  obtain rfl := Option.some.inj hc
  obtain ⟨hparent, hkind⟩ := Option.filter_eq_some_iff.mp hcall
  have hkind : call.kind = .invocationExpression := beq_iff_eq.mp hkind
  refine ⟨member, call, kind, hmember, hparent, hkind, ?_⟩
  rw [callSite, ← hkind]
  rfl

/-! ## What a fix finds -/

/-- The edit of a site of a call, where a call is found that can be rewritten. -/
theorem changes_callSite_iff {c : ChangeSet} :
    (callSite document target callee).changes s = .ok c ↔ ∃ old n r, s.find? document = some old ∧
      old.rootNode.findNode? target .invocationExpression = some n ∧
      qualifiedCall? callee n = some r ∧ c = .single document (.ofNode n r) := by
  constructor
  · intro h
    simp only [Site.changes, callSite, Site.replacement?] at h
    split at h
    · cases h
    · rename_i old hold
      split at h
      · cases h
      · rename_i n hn
        split at h
        · cases h
        · rename_i r hr
          exact ⟨old, n, r, hold, hn, hr, (Except.ok.inj h).symm⟩
  · rintro ⟨old, n, r, hold, hn, hr, rfl⟩
    simp only [Site.changes, callSite, Site.replacement?, hold, hn, hr]

/-- A call of a member is rewritten, whatever its name. -/
theorem exists_qualifiedCall_of_callsMember (module : String) (kind : FloatKind) {n : Node}
    (hn : n.tree.Sound) {name : String} (h : callsMember name n = true) :
    ∃ r, qualifiedCall? (calleeFor module kind) n = some r := by
  obtain ⟨hkind, h⟩ := Bool.and_eq_true_iff.mp h
  obtain ⟨m, hm, h⟩ := (Option.any_eq_true _ _).mp h
  obtain ⟨parts, hparts, -⟩ := (Option.any_eq_true _ _).mp h
  obtain ⟨hmember, -⟩ := Option.ite_none_right_eq_some.mp hparts
  obtain ⟨path, hpath⟩ := exists_dotted_callee module kind
  obtain ⟨r, hr, -⟩ := exists_qualifiedCall hpath hn (beq_iff_eq.mp hkind) hm hmember
  exact ⟨r, hr⟩

/-- What is rewritten is a call of a member. -/
theorem exists_callsMember_of_qualifiedCall {n : Node} (hn : n.tree.Sound) {r : Tree}
    (h : qualifiedCall? callee n = some r) : ∃ name, callsMember name n = true := by
  obtain ⟨member, receiver, list, -, hcall, -, -⟩ := exists_callOf_of_qualifiedCall hn h
  obtain ⟨name, haccess⟩ := hcall.access
  obtain ⟨hkind, -⟩ := Option.ite_none_right_eq_some.mp hcall.call
  refine ⟨Node.MemberParts.nameText ⟨some receiver, some name⟩, ?_⟩
  simp [callsMember, hkind, hcall.childNode?_zero, haccess]

theorem callsMember_unique {n : Node} {name other : String} (h : callsMember name n = true)
    (hother : callsMember other n = true) : name = other := by
  obtain ⟨m, hm, h⟩ := (Option.any_eq_true _ _).mp (Bool.and_eq_true_iff.mp h).2
  obtain ⟨m', hm', hother⟩ := (Option.any_eq_true _ _).mp (Bool.and_eq_true_iff.mp hother).2
  obtain ⟨parts, hparts, h⟩ := (Option.any_eq_true _ _).mp h
  obtain ⟨parts', hparts', hother⟩ := (Option.any_eq_true _ _).mp hother
  obtain rfl := Option.some.inj (hm.symm.trans hm')
  obtain rfl := Option.some.inj (hparts.symm.trans hparts')
  exact (beq_iff_eq.mp h).symm.trans (beq_iff_eq.mp hother)

theorem single_inj {e f : Edit} (h : ChangeSet.single document e = .single document f) : e = f := by
  have hentries := congrArg ChangeSet.entries h
  obtain ⟨-, hedits⟩ := DocumentEdits.mk.inj (List.singleton_inj.mp hentries)
  exact List.singleton_inj.mp hedits

theorem sound_of_findNode? (hs : s.Sound) {old : Document} (hold : s.find? document = some old)
    {kind : NodeKind} {n : Node} (hn : old.rootNode.findNode? target kind = some n) :
    n.tree.Sound :=
  (Node.Inside.of_findNode? hn).sound (hs.root old (Snapshot.mem_of_find? hold).1)

/-- A fix for a call rewrites the call of a member at the span that it keeps, or is refused. -/
theorem exists_call_of_changes (hs : s.Sound)
    (hfix : fix.changes = (callSite fix.document target callee).changes) {c : ChangeSet}
    (h : fix.changes s = .ok c) :
    ∃ old n member receiver list r, s.find? fix.document = some old ∧
      old.rootNode.findNode? target .invocationExpression = some n ∧
      CallOf n member receiver list ∧ c = .single fix.document (.ofNode n r) := by
  rw [hfix] at h
  obtain ⟨old, n, r, hold, hn, hr, hc⟩ := changes_callSite_iff.mp h
  obtain ⟨member, receiver, list, -, hcall, -, -⟩ :=
    exists_callOf_of_qualifiedCall (sound_of_findNode? hs hold hn) hr
  exact ⟨old, n, member, receiver, list, r, hold, hn, hcall, hc⟩

/-- Other code is left alone where no call of another member has the span. -/
theorem spares_iff (hs : s.Sound) {module : String} {kind : FloatKind}
    (hfix : fix.changes = (callSite fix.document target (calleeFor module kind)).changes) :
    Spares fix s ↔ ∀ old n name, s.find? fix.document = some old →
      old.rootNode.findNode? target .invocationExpression = some n → callsMember name n = true →
      name = "ToString" := by
  constructor
  · intro h old n name hold hn hname
    obtain ⟨r, hr⟩ := exists_qualifiedCall_of_callsMember module kind
      (sound_of_findNode? hs hold hn) hname
    have hchanges : fix.changes s = .ok (.single fix.document (.ofNode n r)) := by
      rw [hfix]
      exact changes_callSite_iff.mpr ⟨old, n, r, hold, hn, hr, rfl⟩
    obtain ⟨e, he⟩ | ⟨old', n', r', hold', hn', hcalls, hmade⟩ := h
    · rw [he] at hchanges
      cases hchanges
    · -- the edit says which node it is about
      obtain rfl := Option.some.inj (hold.symm.trans hold')
      obtain ⟨hspan, hkind, -⟩ :=
        Edit.mk.inj (single_inj (Except.ok.inj (hchanges.symm.trans hmade)))
      obtain ⟨hcall, htarget⟩ := Node.kind_span_of_findNode? hn
      rw [← hspan, ← hkind, hcall, htarget, hn] at hn'
      obtain rfl := Option.some.inj hn'
      exact callsMember_unique hname hcalls
  · intro h
    cases hc : fix.changes s with
    | error e => exact .inl ⟨e, hc⟩
    | ok c =>
      have hmade := hc
      rw [hfix] at hmade
      obtain ⟨old, n, r, hold, hn, hr, rfl⟩ := changes_callSite_iff.mp hmade
      obtain ⟨name, hname⟩ :=
        exists_callsMember_of_qualifiedCall (sound_of_findNode? hs hold hn) hr
      obtain ⟨hkind, hspan⟩ := Node.kind_span_of_findNode? hn
      refine .inr ⟨old, n, r, hold, ?_, h old n name hold hn hname ▸ hname, hc⟩
      rw [hspan, hkind, hn]

/-- A fix for a call of `ToString` that is made in another snapshot, parsed from any texts, is refused or
rewrites the call of a member that has the span of the old call. It is refused or rewrites a call of
`ToString` exactly if what has the span is no call of another member. -/
theorem changes_stale {start : Snapshot} (module : String)
    (hcode : d.code = Rule.Formatting.explicitDescriptor.code)
    (hfix : fix ∈ (provider module).propose start host d) {sources : List (String × String)}
    (hs : Snapshot.ofSources sources = .ok s) :
    ∃ member call, start.reportedNode? d = some member ∧ member.parent? = some call ∧
      call.kind = .invocationExpression ∧
      (∀ c, fix.changes s = .ok c → ∃ document n m receiver list r,
        s.find? fix.document = some document ∧
        document.rootNode.findNode? call.span .invocationExpression = some n ∧
        CallOf n m receiver list ∧ c = .single fix.document (.ofNode n r)) ∧
      (Spares fix s ↔ ∀ document n name, s.find? fix.document = some document →
        document.rootNode.findNode? call.span .invocationExpression = some n →
        callsMember name n = true → name = "ToString") := by
  have hsound := Snapshot.sound_ofSources hs
  obtain ⟨member, call, kind, hmember, hparent, hkind, hchanges⟩ := exists_callSite hcode hfix
  exact ⟨member, call, hmember, hparent, hkind,
    fun c hc => exists_call_of_changes hsound hchanges hc, spares_iff hsound hchanges⟩

/-! ## Two versions of a document -/

/-- In `new`, a fix for a diagnostic of `old` finds the call of a member of the name. -/
def FindsCall (old new name : String) (w : Workspace) (s : Snapshot) (d : Diagnostic) (fix : Fix)
    (call n : Node) : Prop :=
  Workspace.ofSources [("A.cs", old)] = .ok w ∧ Snapshot.ofSources [("A.cs", new)] = .ok s ∧
    d ∈ ((ofConfig .default).analyze w.snapshot w.host).diagnostics ∧
    d.code = Rule.Formatting.explicitDescriptor.code ∧
    fix ∈ (provider "J2N.Numerics").propose w.snapshot w.host d ∧
    (w.snapshot.reportedNode? d).bind Node.parent? = some call ∧
    ((s.find? fix.document).bind fun document =>
      document.rootNode.findNode? call.span .invocationExpression) = some n ∧
    callsMember name n = true

/-- Some fix for a diagnostic of `old` finds the call of a member of the name in `new`. -/
def findsCall (old new name : String) : Bool :=
  (Workspace.ofSources [("A.cs", old)]).toOption.any fun w =>
    (Snapshot.ofSources [("A.cs", new)]).toOption.any fun s =>
      ((ofConfig .default).analyze w.snapshot w.host).diagnostics.any fun d =>
        decide (d.code = Rule.Formatting.explicitDescriptor.code) &&
          ((provider "J2N.Numerics").propose w.snapshot w.host d).any fun fix =>
            ((w.snapshot.reportedNode? d).bind Node.parent?).any fun call =>
              ((s.find? fix.document).bind fun document =>
                document.rootNode.findNode? call.span .invocationExpression).any (callsMember name)

theorem exists_of_findsCall {old new name : String} (h : findsCall old new name = true) :
    ∃ w s d fix call n, FindsCall old new name w s d fix call n := by
  unfold findsCall at h
  cases hw : Workspace.ofSources [("A.cs", old)] with
  | error e => rw [hw] at h; cases h
  | ok w =>
    cases hs : Snapshot.ofSources [("A.cs", new)] with
    | error e => rw [hw, hs] at h; cases h
    | ok s =>
      rw [hw, hs] at h
      obtain ⟨d, hd, h⟩ := List.any_eq_true.mp h
      obtain ⟨hcode, h⟩ := Bool.and_eq_true_iff.mp h
      obtain ⟨fix, hfix, h⟩ := List.any_eq_true.mp h
      obtain ⟨call, hcall, h⟩ := (Option.any_eq_true _ _).mp h
      obtain ⟨n, hn, hcalls⟩ := (Option.any_eq_true _ _).mp h
      exact ⟨w, s, d, fix, call, n, hw, hs, hd, of_decide_eq_true hcode, hfix, hcall, hn, hcalls⟩

/-- A call with a diagnostic. -/
def calledOnce : String := "class C \x7b string M(float x) \x7b return x.ToString(); \x7d \x7d"

/-- Another call of `ToString` in the same place. -/
def calledAgain : String := "class D \x7b string N(float y) \x7b return y.ToString(); \x7d \x7d"

theorem changes_stale_calledAgain :
    ∃ w s d fix call n, FindsCall calledOnce calledAgain "ToString" w s d fix call n ∧
      Spares fix s := by
  have hfound : findsCall calledOnce calledAgain "ToString" = true := by decide +kernel
  obtain ⟨w, s, d, fix, call, n, hfinds⟩ := exists_of_findsCall hfound
  have ⟨_, hs, _, hcode, hfix, hcall, hn, hcalls⟩ := hfinds
  obtain ⟨member, call', hmember, hparent, -, -, hspares⟩ :=
    changes_stale "J2N.Numerics" hcode hfix hs
  refine ⟨w, s, d, fix, call, n, hfinds, hspares.mpr fun document n' name hdocument hn' hname => ?_⟩
  -- what is found is the call in the other text
  rw [hmember, Option.bind_some, hparent] at hcall
  obtain rfl := Option.some.inj hcall
  rw [hdocument, Option.bind_some, hn'] at hn
  obtain rfl := Option.some.inj hn
  exact callsMember_unique hname hcalls

/-- A call of another member in the same place. -/
def calledOther : String := "class C \x7b string M(float x) \x7b return x.FromHex_(); \x7d \x7d"

/-- The call of another member is rewritten. -/
theorem changes_stale_calledOther :
    ∃ w s d fix call n, FindsCall calledOnce calledOther "FromHex_" w s d fix call n ∧
      (∃ r, fix.changes s = .ok (.single fix.document (.ofNode n r))) ∧ ¬Spares fix s := by
  have hfound : findsCall calledOnce calledOther "FromHex_" = true := by decide +kernel
  obtain ⟨w, s, d, fix, call, n, hfinds⟩ := exists_of_findsCall hfound
  have ⟨_, hs, _, hcode, hfix, hcall, hn, hcalls⟩ := hfinds
  have hsound := Snapshot.sound_ofSources hs
  obtain ⟨member, call', kind, hmember, hparent, -, hchanges⟩ := exists_callSite hcode hfix
  rw [hmember, Option.bind_some, hparent] at hcall
  obtain rfl := Option.some.inj hcall
  obtain ⟨document, hdocument, hn⟩ := Option.bind_eq_some_iff.mp hn
  obtain ⟨r, hr⟩ := exists_qualifiedCall_of_callsMember "J2N.Numerics" kind
    (sound_of_findNode? hsound hdocument hn) hcalls
  refine ⟨w, s, d, fix, _, n, hfinds, ⟨r, ?_⟩, fun hspares => ?_⟩
  · rw [hchanges]
    exact changes_callSite_iff.mpr ⟨document, n, r, hdocument, hn, hr, rfl⟩
  · have hname := (spares_iff hsound hchanges).mp hspares document n "FromHex_" hdocument hn hcalls
    exact absurd hname (by decide)

end SharpLint.Repair.FormatCall
