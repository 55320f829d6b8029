import SharpLint.Proofs.Engine.Diagnostics
import SharpLint.Proofs.Repair.Called

/-!
# Fixes for calls of `ToString`

The fix for a call replaces it by a call of the path, in which the receiver comes first and the old
arguments follow as they are (`changes_explicit`).
-/

namespace SharpLint.Repair.FormatCall

open Engine

/-- The choice for a callee is the call around it. -/
theorem eq_of_chooseCall {t : Tree} (ht : t.Sound) {member : Node} (hmember : member.Inside t)
    (hkind : member.kind = .simpleMemberAccessExpression) {c : Choice}
    (h : chooseCall? member = some c) :
    ∃ n : Node, member.parent? = some n ∧ n.Inside t ∧ n.childNode? 0 = some member ∧
      c.target = n ∧ c.shape = .call ∧
      member.memberAccess?.bind Node.MemberParts.receiver = some c.typed := by
  obtain ⟨receiver, hreceiver, h⟩ := Option.bind_eq_some_iff.mp h
  obtain ⟨n, hn, h⟩ := Option.bind_eq_some_iff.mp h
  obtain rfl := Option.some.inj h
  obtain ⟨hparent, hcall⟩ := Option.filter_eq_some_iff.mp hn
  obtain ⟨hinside, hmem⟩ := hmember.of_parent? hparent
  exact ⟨n, hparent, hinside, childNode?_of_memberAccess (hinside.sound ht) (beq_iff_eq.mp hcall) hmem
    hkind, rfl, rfl, hreceiver⟩

/-- A diagnostic about a call of `ToString` has one fix. It replaces the call by a call of the method
for the kind of number, whose arguments are the receiver without outer trivia and the old arguments,
with a comma between each two. The outer trivia stay. -/
theorem changes_explicit {sources : List (String × String)} {w : Workspace}
    (hw : Workspace.ofSources sources = .ok w) {config : Config} (module : String) {d : Diagnostic}
    (hd : d ∈ ((ofConfig config).analyze w.snapshot w.host).diagnostics)
    (hcode : d.code = Rule.Formatting.explicitDescriptor.code) :
    ∃ document b n member receiver list kind fix callee arguments r,
      w.snapshot.find? d.location.document = some document ∧
      w.host.bindings? document.id = some b ∧
      w.snapshot.reportedNode? d = some member ∧ member.parent? = some n ∧ n.Inside document.root ∧
      CallOf n member receiver list ∧
      (b.typeOf? receiver).bind TypeInfo.floatKind? = some kind ∧
      (provider module).propose w.snapshot w.host d = [fix] ∧
      fix.changes w.snapshot = .ok (.single document.id (.ofNode n r)) ∧
      r = Build.call callee (.node .argumentList arguments) ∧
      callee.text = joinWith "." (Build.segments module ++ [kind.name, "ToString"]) ∧
      argumentsAmong arguments = Build.argument (bare receiver) :: argumentsAmong list.children ∧
      (bare receiver).fullText = receiver.text ∧
      IsArgumentList (arguments.map Tree.label) ∧
      r.leading = n.tree.leading ∧ r.trailing = n.tree.trailing := by
  have hs := Workspace.sound_snapshot hw
  obtain ⟨document, b, m, f, hm, hf, hd⟩ := exists_formatting_finding hd (by rw [hcode]; decide)
  have hroot := hs.root document hd.mem
  -- the finding is about a callee, because of its code
  obtain ⟨-, rfl, hkind, -⟩ | ⟨hdescriptor, -⟩ := Rule.Formatting.check_cases hm hf
  swap
  · rw [hd.code, hdescriptor] at hcode
    exact absurd hcode (by decide)
  obtain ⟨c, hreported, hchoice, hsited, -⟩ := exists_choice hs hd hm hf
  obtain ⟨kind, fix, r, htyped, hfix, hreplacement, hchanges⟩ :=
    exists_fix module hd hreported hchoice hsited
  rw [if_pos hcode] at hchoice
  obtain ⟨n, hparent, hn, hfirst, htarget, hshape, hreceiver⟩ :=
    eq_of_chooseCall hroot hm hkind hchoice
  rw [Site.replacement?, Choice.site, hshape, htarget] at hreplacement
  obtain ⟨member, receiver, list, callee, arguments, hcall, hmade, hcallee, harguments, hbare, hlabels,
    houter⟩ := exists_called (hn.sound hroot) hreplacement
  -- the member that is called is the one that was reported
  obtain rfl := Option.some.inj (hfirst.symm.trans hcall.childNode?_zero)
  obtain ⟨name, haccess⟩ := hcall.access
  rw [haccess] at hreceiver
  obtain rfl : receiver = c.typed := Option.some.inj hreceiver
  rw [htarget] at hchanges
  rw [segments_calleeFor] at hcallee
  exact ⟨document, b, n, f.node, _, list, kind, fix, callee, arguments, r, hd.place ▸ hd.find?_eq,
    hd.bindings, hreported, hparent, hn, hcall, htyped, hfix, hchanges, hmade, hcallee, harguments,
    hbare, hlabels, houter⟩

/-- Calls of `ToString` on a line of their own, with a named argument and one by reference, and without
arguments. -/
def calledSource : String :=
  "class C \x7b string M(float x, string f) \x7b return\n/*a*/ ( x ) . ToString( /*b*/ format : f , " ++
    "ref f ) /*c*/ + x.ToString( ); \x7d \x7d"

theorem changes_explicit_calledSource :
    ∃ w d, Workspace.ofSources [("A.cs", calledSource)] = .ok w ∧
      d ∈ ((ofConfig .default).analyze w.snapshot w.host).diagnostics ∧ d.code = "NG1001" ∧
      ∃ document n member receiver list fix callee arguments r, document ∈ w.snapshot.documents ∧
        (provider "J2N.Numerics").propose w.snapshot w.host d = [fix] ∧
        fix.changes w.snapshot = .ok (.single document.id (.ofNode n r)) ∧
        CallOf n member receiver list ∧ r = Build.call callee (.node .argumentList arguments) ∧
        argumentsAmong arguments = Build.argument (bare receiver) :: argumentsAmong list.children ∧
        IsArgumentList (arguments.map Tree.label) ∧ r.leading = n.tree.leading ∧
        r.fullText = "/*a*/ J2N.Numerics.Single.ToString(( x ), /*b*/ format : f , ref f ) /*c*/ " := by
  have hrun : ((Workspace.ofSources [("A.cs", calledSource)]).toOption.any fun w =>
      ((ofConfig .default).analyze w.snapshot w.host).diagnostics.any fun d =>
        decide (d.code = "NG1001") && decide
          (((provider "J2N.Numerics").propose w.snapshot w.host d).map (fun fix =>
            (fix.changes w.snapshot).toOption.map fun changes =>
              changes.entries.flatMap (·.edits.map (·.replacement.fullText))) =
          [some ["/*a*/ J2N.Numerics.Single.ToString(( x ), /*b*/ format : f , ref f ) /*c*/ "]])) =
        true := by
    decide +kernel
  cases hw : Workspace.ofSources [("A.cs", calledSource)] with
  | error e => rw [hw] at hrun; cases hrun
  | ok w =>
    rw [hw] at hrun
    obtain ⟨d, hd, hrun⟩ := List.any_eq_true.mp hrun
    obtain ⟨hcode, hrun⟩ := Bool.and_eq_true_iff.mp hrun
    have hcode := of_decide_eq_true hcode
    have htexts := of_decide_eq_true hrun
    obtain ⟨document, b, n, member, receiver, list, kind, fix, callee, arguments, r, hfind, -, -, -, -,
      hcall, -, hfix, hchanges, hmade, -, harguments, -, hlabels, hleading, -⟩ :=
      changes_explicit hw "J2N.Numerics" hd hcode
    rw [hfix, List.map_singleton, hchanges] at htexts
    have htext : [r.fullText] = ["/*a*/ J2N.Numerics.Single.ToString(( x ), /*b*/ format : f , " ++
        "ref f ) /*c*/ "] := Option.some.inj (List.singleton_inj.mp htexts)
    exact ⟨w, d, rfl, hd, hcode, document, n, member, receiver, list, fix, callee, arguments, r,
      List.mem_of_find?_eq_some hfind, hfix, hchanges, hcall, hmade, harguments, hlabels, hleading,
      List.singleton_inj.mp htext⟩

end SharpLint.Repair.FormatCall
