import SharpLint.Proofs.Engine.Batches
import SharpLint.Proofs.Grammar.CompilationUnit

/-!
# Reading a fixed document again

A fix works on trees, and what is written to a file is the text of the new tree. Reading that text
gives the tokens of the tree back exactly when the lexer splits it into these tokens and the grammar
accepts what it finds (`reparses_iff`). A batch leaves every document alone that it does not name
(`fixAll_untouched`).
-/

namespace SharpLint

/-! ## Trees -/

namespace Tree

/-- Kinds and texts of the tokens, trivia aside. -/
def shapes (t : Tree) : List (TokenKind × String) := t.tokens.map fun k => (k.kind, k.text)

/-- The text of the tree can be read, and gives the tokens of the tree. -/
def Reparses (t : Tree) : Prop := ∃ t', parse t.fullText = .ok t' ∧ t'.shapes = t.shapes

/-- The lexer splits the text of the tree into the tokens of the tree. -/
def LexesBack (t : Tree) : Prop :=
  ∃ ls, Lexeme.ofChars t.fullChars = .ok ls ∧
    ls.map (fun l => (l.token.kind, l.token.text)) = t.shapes

/-- The grammar accepts the lexemes of the text of the tree. -/
def IsAccepted (t : Tree) : Prop :=
  ∃ ls t', Lexeme.ofChars t.fullChars = .ok ls ∧ compilationUnit ls = .ok t'

instance (t : Tree) : Decidable t.Reparses :=
  match h : parse t.fullText with
  | .ok t' => decidable_of_iff (t'.shapes = t.shapes) (by simp [Reparses, h])
  | .error _ => isFalse (by simp [Reparses, h])

theorem parse_fullText {t t' : Tree} : parse t.fullText = .ok t' ↔
    ∃ ls, Lexeme.ofChars t.fullChars = .ok ls ∧ compilationUnit ls = .ok t' := by
  have hchars : t.fullText.toList = t.fullChars := String.toList_ofList
  rw [parse_eq_ok, hchars]

/-- The grammar neither adds nor drops a token, so nothing else can go wrong. -/
theorem reparses_iff (t : Tree) : t.Reparses ↔ t.LexesBack ∧ t.IsAccepted := by
  have htokens {ls : List Lexeme} {t' : Tree} (hls : Lexeme.ofChars t.fullChars = .ok ls)
      (hunit : compilationUnit ls = .ok t') :
      t'.shapes = ls.map fun l => (l.token.kind, l.token.text) := by
    rw [shapes, tokens_compilationUnit hunit (Lexeme.endsOnce_ofChars hls), List.map_map]
    rfl
  constructor
  · rintro ⟨t', hparse, hshapes⟩
    obtain ⟨ls, hls, hunit⟩ := parse_fullText.mp hparse
    refine ⟨⟨ls, hls, ?_⟩, ls, t', hls, hunit⟩
    rw [← htokens hls hunit, hshapes]
  · rintro ⟨⟨ls, hls, hshapes⟩, ls', t', hls', hunit⟩
    obtain rfl := Except.ok.inj (hls.symm.trans hls')
    refine ⟨t', parse_fullText.mpr ⟨ls, hls, hunit⟩, ?_⟩
    rw [htokens hls hunit, hshapes]

/-- Without a `$`, the tree of a text prints the text. -/
theorem fullText_of_parse {text : String} {t : Tree} (h : parse text = .ok t)
    (hdollar : '$' ∉ text.toList) : t.fullText = text := by
  obtain ⟨ls, hls, hunit⟩ := parse_eq_ok.mp h
  rw [← Lexeme.printed_of_notMem hls hdollar, fullText, fullChars,
    tokens_compilationUnit hunit (Lexeme.endsOnce_ofChars hls), List.flatMap_map]
  rfl

end Tree

/-! ## Batches -/

namespace Engine

/-- A document that a batch does not name is as it was. -/
theorem fixAll_untouched {e : Engine} {s : Snapshot} {host : Host} {code : String}
    {b : BatchResult} (h : e.fixAll s host code = .ok b) {d : Document}
    (hd : d ∈ b.snapshot.documents) (hnamed : ∀ id ∈ b.documents, d.id.same id = false) :
    d ∈ s.documents :=
  (fixAll_kept h).mem d hd hnamed

/-- A batch on source texts; nothing when they cannot be read or the batch fails. -/
def fixSources? (config : Config) (sources : List (String × String)) (code : String) :
    Option BatchResult := do
  let w ← (Workspace.ofSources sources).toOption
  ((ofConfig config).fixAll w.snapshot w.host code).toOption

theorem fixSources?_eq_some {config : Config} {sources : List (String × String)} {code : String}
    {b : BatchResult} (h : fixSources? config sources code = some b) :
    ∃ w, Workspace.ofSources sources = .ok w ∧
      (ofConfig config).fixAll w.snapshot w.host code = .ok b := by
  cases hw : Workspace.ofSources sources with
  | error e => simp [fixSources?, hw, Except.toOption] at h
  | ok w =>
    refine ⟨w, rfl, ?_⟩
    cases hb : (ofConfig config).fixAll w.snapshot w.host code with
    | error e => simp [fixSources?, hw, hb, Except.toOption] at h
    | ok b' => simpa [fixSources?, hw, hb, Except.toOption] using h

end Engine

end SharpLint
