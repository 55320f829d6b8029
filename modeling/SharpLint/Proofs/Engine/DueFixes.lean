import SharpLint.Proofs.Engine.Called
import SharpLint.Proofs.Engine.Reported
import SharpLint.Proofs.Repair.Clearing
import SharpLint.Proofs.Repair.Wrapped

/-!
# Fixes for what is due

A node is due exactly when the rule for the cause makes a finding whose fix is to replace the node:

    due node      has a finding                                (exists_finding_of_due)
    finding       is about a due node                          (exists_due_of_finding)
    fix           replaces the due node and clears it          (exists_clearing_fix)

In this way the findings of a call are about its callee, and those of a hole about its expression.
-/

namespace SharpLint

open SharpLint.Tree Skeleton

namespace Cause

/-- The code of the diagnostics for the cause. -/
def code : Cause → String
  | .call => Rule.Formatting.explicitDescriptor.code
  | .text => Rule.Formatting.implicitDescriptor.code
  | .visibility => Rule.SupportNamespace.descriptor.code

def rule (start : String) : Cause → Rule
  | .call | .text => Rule.Formatting.rule
  | .visibility => Rule.SupportNamespace.rule start

def find (start : String) : Cause → Bindings → Node → List Finding
  | .call | .text => Rule.Formatting.check
  | .visibility => Rule.SupportNamespace.check start

/-- The node to replace, by the node that a finding is about. -/
def target? : Cause → Node → Option Node
  | .call, n => n.parent?
  | .text, n => some (Repair.FormatCall.chooseExpression n).target
  | .visibility, n => some n

theorem isBuiltIn (start : String) (cause : Cause) :
    Rule.IsBuiltIn start (cause.rule start) (cause.find start) := by
  cases cause with
  | call => exact .formatting
  | text => exact .formatting
  | visibility => exact .supportNamespace

theorem reports (start : String) (cause : Cause) : (cause.rule start).reports cause.code = true := by
  cases cause with
  | call => rfl
  | text => rfl
  | visibility => rfl

/-- One rule reports the code of the cause. -/
theorem eq_of_reports {start : String} {r : Rule} {find : Bindings → Node → List Finding}
    {cause : Cause} (hr : Rule.IsBuiltIn start r find) (h : r.reports cause.code = true) :
    r = cause.rule start ∧ find = cause.find start := by
  cases cause with
  | call => exact (hr.eq_of_reports h).1 List.mem_cons_self
  | text => exact (hr.eq_of_reports h).1 (List.mem_cons_of_mem _ List.mem_cons_self)
  | visibility => exact (hr.eq_of_reports h).2 List.mem_cons_self

/-- The causes are told apart by their codes. -/
theorem code_injective {cause other : Cause} (h : cause.code = other.code) : cause = other := by
  revert h
  cases cause
  all_goals
    cases other
    all_goals decide

theorem find_of_ne {cause : Cause} (h : cause ≠ .visibility) (start : String) :
    cause.find start = Rule.Formatting.check := by
  cases cause with
  | call => rfl
  | text => rfl
  | visibility => exact absurd rfl h

end Cause

variable {scope : Scope} {start : String} {cause : Cause} {t : Tree} {m n : Node} {f : Finding}

/-! ## Findings -/

namespace Rule.Formatting

theorem mem_check_of_callee (hcallee : callsToString scope.bindings n = true) :
    .aboutText explicitDescriptor n ∈ check scope.bindings n ∧
      n.kind = .simpleMemberAccessExpression := by
  obtain ⟨parts, hparts, -⟩ := (Option.any_eq_true _ _).mp hcallee
  have hkind : n.kind = .simpleMemberAccessExpression := (Option.ite_none_right_eq_some.mp hparts).1
  refine ⟨?_, hkind⟩
  rw [check, hkind]
  dsimp only
  rw [if_pos hcallee]
  exact List.mem_singleton_self _

/-- The findings with the code for text are those about implicit nodes. -/
theorem mem_check_implicit (b : Bindings) (n : Node) (f : Finding) :
    f ∈ check b n ∧ f.descriptor.code = implicitDescriptor.code ↔
      ∃ m ∈ implicitNodes b n, f = .aboutText implicitDescriptor m := by
  have hfilter : f ∈ (check b n).filter (·.descriptor.code == "NG1006") ↔
      f ∈ check b n ∧ f.descriptor.code = implicitDescriptor.code := by
    rw [List.mem_filter, beq_iff_eq]
    rfl
  rw [← hfilter, filter_check, List.mem_map]
  simp only [eq_comm]

theorem kind_of_mem_implicitNodes {b : Bindings} (h : m ∈ implicitNodes b n) : n.kind ∈ rule.kinds := by
  unfold implicitNodes at h
  split at h
  · rename_i hk
    rw [hk]
    decide
  · rename_i hk
    rw [hk]
    decide
  · cases h

end Rule.Formatting

namespace Scope

open Node Rule.Formatting Repair.FormatCall

theorem holeOf?_of_operand (h : n.Inside t) (ht : t.Shaped)
    (huse : (n.situation scope start t).use = .operand) : n.holeOf? = none := by
  rw [Option.eq_none_iff_forall_ne_some]
  intro p hp
  obtain ⟨hmem, hinside, hexpression⟩ := (holeOf?_eq_some_iff h).mp hp
  have hk := (childNode?_of_hole hexpression).1
  rw [situation_of_mem_childNodes hinside ht hmem] at huse
  rcases down_operand_iff.mp huse with ⟨hother, -⟩ | ⟨hother, -⟩
  · cases hk.symm.trans hother
  · cases hk.symm.trans hother

/-- For an expression that is reported, its hole or itself is chosen. -/
theorem target_chooseExpression (h : n.Inside t) (hm : n.holeOf? = none ∧ m = n ∨ n.holeOf? = some m) :
    (chooseExpression n).target = m := by
  rw [chooseExpression_eq h]
  rcases hm with ⟨hnone, rfl⟩ | hhole
  · rw [hnone]
  · rw [hhole]

/-- A node that is due has a finding whose fix replaces the node. -/
theorem exists_finding_of_due (hm : m.Inside t) (ht : t.Shaped)
    (hdue : m.isDue scope start t cause = true) : ∃ n f, n.Inside t ∧
      n.kind ∈ (cause.rule start).kinds ∧ f ∈ cause.find start scope.bindings n ∧
      f.descriptor.code = cause.code ∧ cause.target? f.node = some m := by
  cases cause with
  | call =>
    obtain ⟨-, callee, hcallee, hcalls⟩ := (isDue_call_iff hm ht).mp hdue
    have hmem : callee ∈ m.childNodes := List.mem_of_getElem? hcallee
    obtain ⟨hfound, hkind⟩ := mem_check_of_callee hcalls
    refine ⟨callee, _, hm.child hmem, ?_, hfound, rfl, parent?_of_mem_childNodes hmem⟩
    rw [hkind]
    exact List.mem_cons_self
  | text =>
    -- the expression of a hole that is due, or the operand
    have hexpression : ∃ e : Node, e.Inside t ∧ scope.bindings.isFloatingExpression e = true ∧
        (IsInHole t e ∨ IsTextOperand scope.bindings t e) ∧ (chooseExpression e).target = m := by
      rcases (isDue_text_iff hm ht).mp hdue with ⟨e, hfloat, he, p, hp, hk, hmem⟩ | ⟨hfloat, hoperand⟩
      · obtain ⟨hkind, hfirst⟩ := childNode?_of_hole he
        have hchild : e ∈ m.childNodes := List.mem_of_getElem? hfirst
        have hinside := hm.child hchild
        exact ⟨e, hinside, hfloat, .inl ⟨p, m, hp, hk, hmem, hkind, he⟩, target_chooseExpression
          hinside (.inr ((holeOf?_eq_some_iff hinside).mpr ⟨hchild, hm, he⟩))⟩
      · have huse := ((use_eq_operand_iff start hm ht).mpr hoperand).1
        exact ⟨m, hm, hfloat, .inr hoperand,
          target_chooseExpression hm (.inl ⟨holeOf?_of_operand hm ht huse, rfl⟩)⟩
    obtain ⟨e, he, hfloat, hplace, htarget⟩ := hexpression
    obtain ⟨n, hn, hmem⟩ :=
      (exists_mem_implicitNodes fun _ h => isConcatenation_of_isFloating h).mpr ⟨hfloat, hplace⟩
    obtain ⟨hf, hcode⟩ := (mem_check_implicit scope.bindings n _).mpr ⟨e, hmem, rfl⟩
    exact ⟨n, _, hn, kind_of_mem_implicitNodes hmem, hf, hcode, congrArg some htarget⟩
  | visibility =>
    rw [isDue_visibility_iff hm ht] at hdue
    have hkind : m.kind.isTypeDeclaration = true :=
      (Bool.and_eq_true_iff.mp (Bool.and_eq_true_iff.mp hdue).1).2
    have hkinds : m.kind ∈ (Rule.SupportNamespace.rule start).kinds := by
      revert hkind
      cases m.kind
      all_goals exact fun h => by first | (cases h; done) | simp [Rule.SupportNamespace.rule]
    have hcheck : Rule.SupportNamespace.check start scope.bindings m = [⟨_, m, _⟩] := if_pos hdue
    exact ⟨m, _, hm, hkinds, hcheck ▸ List.mem_singleton_self _, rfl, rfl⟩

/-- A finding is about a node that is due. -/
theorem exists_due_of_finding (hn : n.Inside t) (ht : t.Sound)
    (hf : f ∈ cause.find start scope.bindings n) (hcode : f.descriptor.code = cause.code) :
    ∃ m, cause.target? f.node = some m ∧ m.Inside t ∧ m.isDue scope start t cause = true := by
  cases cause with
  | call =>
    obtain ⟨-, rfl, hkind, hcalls⟩ | ⟨hdescriptor, -⟩ := check_cases hn hf
    · obtain ⟨p, hp, hmem, hk⟩ := isCallee_iff hn (by
        obtain ⟨parts, -, hparts⟩ := (Option.any_eq_true _ _).mp hcalls
        exact (Bool.and_eq_true_iff.mp (Bool.and_eq_true_iff.mp hparts).1).2)
      have hfirst := childNode?_of_memberAccess (hp.sound ht) hk hmem hkind
      exact ⟨p, parent?_of_mem_childNodes hmem, hp,
        (isDue_call_iff hp ht.shaped).mpr ⟨hk, f.node, hfirst, hcalls⟩⟩
    · rw [hdescriptor] at hcode
      exact absurd hcode (by decide)
  | text =>
    obtain ⟨e, hmem, rfl⟩ := (mem_check_implicit scope.bindings n f).mp ⟨hf, hcode⟩
    obtain ⟨hfloat, hplace⟩ :=
      (exists_mem_implicitNodes fun _ h => isConcatenation_of_isFloating h).mp ⟨n, hn, hmem⟩
    have he := (tight_of_mem_implicitNodes ht hn hmem).1
    rcases hplace with ⟨p, h, hp, hk, hh, -, hexpression⟩ | hoperand
    · have hchild : e ∈ h.childNodes :=
        List.mem_of_getElem? (childNode?_of_hole hexpression).2
      have hhole := (holeOf?_eq_some_iff he).mpr ⟨hchild, hp.child hh, hexpression⟩
      exact ⟨h, congrArg some (target_chooseExpression he (.inr hhole)), hp.child hh,
        (isDue_text_iff (hp.child hh) ht.shaped).mpr (.inl ⟨e, hfloat, hexpression, p, hp, hk, hh⟩)⟩
    · have huse := ((use_eq_operand_iff start he ht.shaped).mpr hoperand).1
      exact ⟨e, congrArg some (target_chooseExpression he
        (.inl ⟨holeOf?_of_operand he ht.shaped huse, rfl⟩)), he,
        (isDue_text_iff he ht.shaped).mpr (.inr ⟨hfloat, hoperand⟩)⟩
  | visibility =>
    obtain ⟨hnode, hexposed⟩ : f.node = n ∧ Rule.SupportNamespace.isExposed start n = true := by
      have hcheck : f ∈ Rule.SupportNamespace.check start scope.bindings n := hf
      rw [Rule.SupportNamespace.check] at hcheck
      split at hcheck
      · rename_i hexposed
        obtain rfl := List.mem_singleton.mp hcheck
        exact ⟨rfl, hexposed⟩
      · cases hcheck
    exact ⟨n, congrArg some hnode, hn, (isDue_visibility_iff hn ht.shaped).trans hexposed⟩

end Scope

/-! ## Fixes -/

/-- No value is named like a type that formats. -/
def Scope.Unshadowed (scope : Scope) : Prop := ∀ kind, scope.shadows kind = false

namespace Repair.FormatCall

open Node Scope

variable {s : Snapshot} {host : Host} {document : Document} {x : Diagnostic}

theorem isOperand_of_use (h : n.Inside t) (ht : t.Shaped)
    (huse : (n.situation scope start t).use = .operand) : Rule.Formatting.IsOperand t n := by
  cases h using Inside.rec_childNodes with
  | root =>
    rw [situation_root] at huse
    cases huse
  | child p m hp hm ih =>
    rw [situation_of_mem_childNodes hp ht hm] at huse
    refine ⟨p, hp, hm, ?_⟩
    rcases down_operand_iff.mp huse with ⟨hk, -⟩ | ⟨hk, -⟩
    · rw [show p.kind = .addExpression from hk]
      rfl
    · rw [show p.kind = .parenthesizedExpression from hk]
      rfl

theorem isSite_of_isOperand (h : Rule.Formatting.IsOperand t n) : Replaced.IsSite n := by
  obtain ⟨p, hp, hm, htakes⟩ := h
  obtain ⟨left, right, -, -, habove⟩ := exists_split_childNodes hm
  exact .inr ⟨p.kind, by rw [habove]; rfl, htakes⟩

/-- The replacement of a call that is due clears it. -/
theorem clears_qualifiedCall {module : String} {kind : FloatKind} {r : Tree} (hm : m.Inside t)
    (ht : t.Sound) (hnames : scope.Unshadowed) (hdue : m.isDue scope start t .call = true)
    (hr : qualifiedCall? (calleeFor module kind) m = some r) :
    Clears scope start .call (m.situation scope start t) m.tree.skeleton r.skeleton := by
  obtain ⟨member, receiver, list, path, hcall, hpath, rfl⟩ :=
    exists_callOf_of_qualifiedCall (hm.sound ht) hr
  exact clears_call hcall (hm.sound ht) (Build.isFormatter_callee (hnames kind) hpath) hdue

/-- The replacement of what is chosen for an expression clears it. -/
theorem clears_implicit {module : String} {kind : FloatKind} {site : Site} {r : Tree}
    (hn : n.Inside t) (ht : t.Sound) (hnames : scope.Unshadowed)
    (hcallee : site.callee = calleeFor module kind)
    (hshape : site.shape = (chooseExpression n).shape)
    (hplace : Rule.Formatting.IsInHole t n ∨ Rule.Formatting.IsTextOperand scope.bindings t n)
    (hr : site.replacement? (chooseExpression n).target = some r) :
    Replaced.IsSite (chooseExpression n).target ∧
      (chooseExpression n).target.kind ≠ .modifierList ∧
      Clears scope start .text ((chooseExpression n).target.situation scope start t)
        (chooseExpression n).target.tree.skeleton r.skeleton := by
  have hformatter : ∀ path, Build.dotted? site.callee = some path → Build.IsFormatter scope path :=
    fun path hpath => Build.isFormatter_callee (hnames kind) (hcallee ▸ hpath)
  rw [Site.replacement?, hshape] at hr
  rcases hplace with ⟨p, h, hp, hk, hh, hkind, hexpression⟩ | hoperand
  · have hchild : n ∈ h.childNodes := List.mem_of_getElem? (childNode?_of_hole hexpression).2
    have hhole := (holeOf?_eq_some_iff hn).mpr ⟨hchild, hp.child hh, hexpression⟩
    rw [chooseExpression_eq hn, hhole] at hr ⊢
    refine ⟨.inl (by rw [hkind]; rfl), by rw [hkind]; decide, ?_⟩
    refine clears_hole hformatter ?_ ((hp.child hh).shaped ht.shaped) hexpression hr
    rw [(use_eq_part_iff (hp.child hh) ht.shaped).mpr ⟨p, hp, hk, hh⟩]
    decide
  · obtain ⟨huse, hparentheses⟩ :=
      (use_eq_operand_iff start hn ht.shaped).mpr hoperand
    rw [chooseExpression_eq hn, holeOf?_of_operand hn ht.shaped huse] at hr ⊢
    obtain ⟨path, hpath, hskeleton⟩ := exists_path_of_wrap hr
    have hin := isOperand_of_use hn ht.shaped huse
    have hexpression := isExpression_of_isOperand ht hin
    refine ⟨isSite_of_isOperand hin, ?_, ?_⟩
    · rintro (hlist : n.kind = .modifierList)
      rw [hlist] at hexpression
      cases hexpression
    · rw [hskeleton]
      exact clears_operand (hformatter path hpath) huse hparentheses

variable (start) in
/-- The fix for a finding about formatting replaces the node that is due, and clears it. -/
theorem exists_clearing_fix (module : String) (hs : s.Sound) (hnames : scope.Unshadowed)
    (hx : x.Reports s host document scope.bindings f) (hn : n.Inside document.root)
    (hf : f ∈ Rule.Formatting.check scope.bindings n) (hcause : cause ≠ .visibility)
    (hcode : x.code = cause.code) (htarget : cause.target? f.node = some m) :
    ∃ fix r, (provider module).propose s host x = [fix] ∧
      fix.changes s = .ok (.single document.id (.ofNode m r)) ∧
      (Node.root document.root).findNode? m.span m.kind = some m ∧
      (Edit.ofNode m r).ClearsDue scope start cause document.root := by
  have hroot := hs.root document hx.mem
  obtain ⟨c, hreported, hchoice, hsited, -⟩ := exists_choice hs hx hn hf
  obtain ⟨kind, fix, r, -, hpropose, hr, hchanges, -⟩ :=
    exists_fitting_fix module hx hreported hchoice hsited
  cases cause with
  | call =>
    obtain ⟨-, rfl, hkind, -⟩ | ⟨hdescriptor, -⟩ := Rule.Formatting.check_cases hn hf
    · rw [if_pos (show x.code = Rule.Formatting.explicitDescriptor.code from hcode)] at hchoice
      obtain ⟨p, hparent, hp, hfirst, rfl, hshape, -⟩ := eq_of_chooseCall hroot hn hkind hchoice
      obtain rfl := Option.some.inj (hparent.symm.trans htarget)
      rw [Site.replacement?, Choice.site, hshape] at hr
      obtain ⟨m', hm', hdue⟩ := exists_due_of_finding hn hroot
        (show f ∈ Cause.call.find start scope.bindings f.node from hf)
        (hx.code.symm.trans hcode)
      obtain rfl := Option.some.inj (htarget.symm.trans hm')
      obtain ⟨hk, -⟩ := (isDue_call_iff hp hroot.shaped).mp hdue.2
      exact ⟨fix, r, hpropose, hchanges, hsited.found, c.target, hsited.found, .inl (by rw [hk]; rfl),
        by rw [hk]; decide, clears_qualifiedCall hp hroot hnames hdue.2 hr⟩
    · rw [hx.code, hdescriptor] at hcode
      exact absurd hcode (by decide)
  | text =>
    have hcodes : x.code ≠ Rule.Formatting.explicitDescriptor.code := by
      rw [hcode]
      decide
    rw [if_neg hcodes, Option.some.injEq] at hchoice
    obtain rfl := hchoice
    obtain rfl := Option.some.inj htarget
    obtain ⟨e, hmem, rfl⟩ := (Rule.Formatting.mem_check_implicit scope.bindings n f).mp
      ⟨hf, hx.code.symm.trans hcode⟩
    have he := (Rule.Formatting.tight_of_mem_implicitNodes hroot hn hmem).1
    obtain ⟨-, hplace⟩ := (Rule.Formatting.exists_mem_implicitNodes fun _ h =>
      Rule.Formatting.isConcatenation_of_isFloating h).mp ⟨n, hn, hmem⟩
    exact ⟨fix, r, hpropose, hchanges, hsited.found, _, hsited.found,
      clears_implicit he hroot hnames rfl rfl hplace hr⟩
  | visibility => exact absurd rfl hcause

end Repair.FormatCall

/-- An edit that makes a declaration internal clears it. -/
theorem Repair.Visibility.MakesInternal.clears {e : Edit} (h : MakesInternal t e) (ht : t.Sound) :
    e.ClearsDue scope start .visibility t := by
  obtain ⟨n, hn, hkind, hnew⟩ := h
  refine ⟨n, hn, .inl ?_, ?_, clears_declaration ((Node.Inside.of_findNode? hn).shaped ht.shaped) hkind hnew⟩
  · revert hkind
    cases n.kind
    all_goals exact fun h => by first | rfl | cases h
  · rintro hlist
    rw [hlist] at hkind
    cases hkind

end SharpLint
