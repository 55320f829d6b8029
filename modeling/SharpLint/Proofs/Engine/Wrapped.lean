import SharpLint.Proofs.Engine.Diagnostics
import SharpLint.Proofs.Repair.Wrapped

/-!
# Fixes for expressions that are turned into text

The fix for an operand or for the expression of a hole can be applied, changes one document, and is a
splice of its text (`applyStrictly_implicit`).
-/

namespace SharpLint.Repair.FormatCall

open Engine

/-- A diagnostic about an expression that is turned into text has one fix. It is applied whatever
happens to edits that overlap, and changes the text of one document, by a splice. -/
theorem applyStrictly_implicit {sources : List (String × String)} {w : Workspace}
    (hw : Workspace.ofSources sources = .ok w) {config : Config} (module : String)
    (policy : OverlapPolicy) {d : Diagnostic}
    (hd : d ∈ ((ofConfig config).analyze w.snapshot w.host).diagnostics)
    (hcode : d.code = Rule.Formatting.implicitDescriptor.code) :
    ∃ document b n kind fix new root,
      w.snapshot.find? d.location.document = some document ∧
      w.host.bindings? document.id = some b ∧
      w.snapshot.reportedNode? d = some n ∧ n.span = d.location.span ∧
      sliceBytes? d.location.span.start d.location.span.stop document.chars = some n.text.toList ∧
      (b.typeOf? n).bind TypeInfo.floatKind? = some kind ∧
      (provider module).propose w.snapshot w.host d = [fix] ∧
      fix.applyStrictly w.snapshot policy = .ok new ∧
      new.documents =
        w.snapshot.documents.map (fun other => if other = document then ⟨document.id, root⟩ else other) ∧
      root.fullChars = splice (wrappingChanges (calleeFor module kind) n) 0 document.chars := by
  have hs := Workspace.sound_snapshot hw
  obtain ⟨document, b, m, f, hm, hf, hd⟩ := exists_formatting_finding hd (by rw [hcode]; decide)
  have hroot := hs.root document hd.mem
  -- the finding is about an expression, because of its code
  obtain ⟨hdescriptor, -⟩ | ⟨-, hfloat, hplace⟩ := Rule.Formatting.check_cases hm hf
  · rw [hd.code, hdescriptor] at hcode
    exact absurd hcode (by decide)
  obtain ⟨hinside, hkind, -⟩ := sited_expression hroot hfloat hplace
  obtain ⟨c, hreported, hchoice, hsited, -⟩ := exists_choice hs hd hm hf
  have hcodes : d.code ≠ Rule.Formatting.explicitDescriptor.code := by
    rw [hcode]
    decide
  rw [if_neg hcodes] at hchoice
  obtain rfl := Option.some.inj hchoice
  obtain ⟨kind, fix, r, htyped, hfix, hreplacement, hchanges⟩ :=
    exists_fix module hd hreported (if_neg hcodes) hsited
  have htext := fullChars_replaceWith hroot (Workspace.laid_snapshot hw document hd.mem) hinside hkind
    hsited rfl hreplacement
  have hnode : (chooseExpression f.node).typed = f.node := by
    rw [chooseExpression_eq hinside]
    split
    · rfl
    · rfl
  have hfind := hd.find?_eq
  have happlied := Fix.applyStrictly_single hchanges hfind hsited.found policy
  have hslice := (spans_of_below hinside).2.1
  rw [hnode] at htyped
  rw [← hd.place] at hfind
  rw [hd.span]
  exact ⟨document, b, f.node, kind, fix, _, _, hfind, hd.bindings, hreported, rfl, hslice, htyped, hfix,
    happlied, w.snapshot.documents_setRoot hd.mem _, htext⟩

/-- A hole with comment, alignment and format, and behind it an operand in parentheses. -/
def holeSource : String :=
  "class C \x7b string M(float x, double y) \x7b " ++
    "return $\"\x7b x /*a*/ , 5 :F2 \x7d\" + (y) /*b*/; \x7d \x7d"

theorem applyStrictly_implicit_holeSource :
    ∃ w d, Workspace.ofSources [("A.cs", holeSource), ("B.cs", "class D \x7b \x7d")] = .ok w ∧
      d ∈ ((ofConfig .default).analyze w.snapshot w.host).diagnostics ∧ d.code = "NG1006" ∧
      ∃ document n kind fix new, ∃ root : Tree, w.snapshot.find? d.location.document = some document ∧
        w.snapshot.reportedNode? d = some n ∧
        (provider "J2N..Numerics").propose w.snapshot w.host d = [fix] ∧
        fix.applyStrictly w.snapshot .reject = .ok new ∧
        root.fullChars =
          splice (wrappingChanges (calleeFor "J2N..Numerics" kind) n) 0 document.chars ∧
        new.documents.map Document.text = ["class C \x7b string M(float x, double y) \x7b " ++
          "return $\"\x7b J2N.Numerics.Single.ToString(x, \"F2 \") /*a*/ , 5 \x7d\" + (y) /*b*/; \x7d \x7d",
          "class D \x7b \x7d"] := by
  have hrun : ((Workspace.ofSources [("A.cs", holeSource), ("B.cs", "class D \x7b \x7d")]).toOption.any fun w =>
      ((ofConfig .default).analyze w.snapshot w.host).diagnostics.any fun d =>
        decide (d.code = "NG1006") && decide
          (((provider "J2N..Numerics").propose w.snapshot w.host d).map (fun fix =>
            (fix.applyStrictly w.snapshot .reject).toOption.map (·.documents.map Document.text)) =
          [some ["class C \x7b string M(float x, double y) \x7b " ++
            "return $\"\x7b J2N.Numerics.Single.ToString(x, \"F2 \") /*a*/ , 5 \x7d\" + (y) /*b*/; \x7d \x7d",
            "class D \x7b \x7d"]])) = true := by
    decide +kernel
  cases hw : Workspace.ofSources [("A.cs", holeSource), ("B.cs", "class D \x7b \x7d")] with
  | error e => rw [hw] at hrun; cases hrun
  | ok w =>
    rw [hw] at hrun
    obtain ⟨d, hd, hrun⟩ := List.any_eq_true.mp hrun
    obtain ⟨hcode, hrun⟩ := Bool.and_eq_true_iff.mp hrun
    have hcode := of_decide_eq_true hcode
    have htexts := of_decide_eq_true hrun
    obtain ⟨document, b, n, kind, fix, new, root, hfind, -, hreported, -, -, -, hfix, happlied, -, hsplice⟩ :=
      applyStrictly_implicit hw "J2N..Numerics" .reject hd hcode
    rw [hfix, List.map_singleton, happlied] at htexts
    exact ⟨w, d, rfl, hd, hcode, document, n, kind, fix, new, root, hfind, hreported, hfix, happlied,
      hsplice, Option.some.inj (List.singleton_inj.mp htexts)⟩

end SharpLint.Repair.FormatCall
