import SharpLint.Proofs.Grammar.CompilationUnit
import SharpLint.Proofs.Grammar.Lookahead
import SharpLint.Proofs.Grammar.Loops

/-!
# Parsing makes progress

Levels of references and rounds of loops are counted so that reading a text ends, and the counts are never
used up: every reference, every round and every production that others refer to comes with a lexeme that is
read. So a text is read as by the grammar in which nothing is counted (`parsing_ends`).
-/

namespace SharpLint

open Production

namespace Inner

/-- The tree of a source text, read with the grammar `g`. -/
def parseText (g : Inner) (text : String) : Except ParseError Tree :=
  let unit (s : List Lexeme) : Except FaultAt Tree :=
    (seq [g.members .endOfFile, bump] s).map fun read => .node .compilationUnit read.1
  ((Lexeme.ofChars text.toList).bind unit).mapError (ParseError.locate text.toList)

variable {g : Inner} {n : Nat}

/-- What is in step with the whole grammar where fewer than `n` lexemes are left does the same there. -/
theorem InStep.of_agree (h : ∀ x s, s.length < n → g.part x s = whole.part x s) : g.InStep n whole := by
  refine .of_parts fun x s hs => ⟨h x s hs, fun ts rest hok => ?_⟩
  rw [h x s hs] at hok
  exact ((inStep_self n).part x s hs).reads ts rest hok

/-- A production refers to others only where a lexeme less is left. -/
theorem unfold_part_agree (h : ∀ x s, s.length < n → g.part x s = whole.part x s) (x : Part)
    (s : List Lexeme) (hs : s.length < n + 1) : g.unfold.part x s = whole.part x s := by
  have hstep := (InStep.of_agree h).unfold_part x s hs
  rw [hstep.same, unfold_whole]

end Inner

theorem parse_eq (text : String) : parse text = Inner.whole.parseText text := by
  rw [parse, Inner.parseText]
  cases Lexeme.ofChars text.toList with
  | error e => rfl
  | ok s =>
    dsimp only [Except.bind]
    rw [compilationUnit_eq]
    cases seq [Inner.whole.members .endOfFile, bump] s with
    | error e => rfl
    | ok read => rfl

/-- Parsing ends on every text.

* A production that others refer to reads a lexeme where it succeeds, and never the end of the text; only
  a namespace may have no members.
* A look ahead ends where it started, wherever a failed try leaves the cursor, and the type and name of
  an argument are read together or not at all.
* A round of a loop goes on only behind a lexeme that it read. So the loop, which allows a round for each
  lexeme, is the one solution of its own equation.
* A production refers to others only behind a lexeme that it read. So as many levels of references as
  lexemes are left, and one more, hide whatever stands below them, and there is one grammar that refers
  to itself.
* The lexemes of a text end with its end, and the text is read with that grammar. -/
theorem parsing_ends :
    (∀ x s ts rest, Inner.whole.part x s = .ok (ts, rest) → ReadsFrom x.fewest s rest) ∧
    (∀ lost g s,
      (Lookahead.localVariables lost g).run s = (Grammar.looksLikeVariables g s, s) ∧
      (Lookahead.designation lost g).run s = (Grammar.looksLikeDesignation g s, s) ∧
      (Lookahead.cast lost g).run s = (Grammar.looksLikeCast g s, s) ∧
      (Lookahead.compositeType lost g).run s = (Grammar.looksLikeCompositeType g s, s) ∧
      ∀ close, (Lookahead.declaredVariable lost g close).run s =
        if Grammar.declaresVariable g close s then
          (Lookahead.attempt id (node .declarationExpression (seq [Grammar.type g, bump]))).run s
        else (none, s)) ∧
    (∀ round loop, Grammar.Loop .whole round loop → round.Advances ∧
      ∀ q, round.Solves q ↔ ∀ left s, Ended s → q left s = loop left s) ∧
    (∀ (g : Inner) n, (∀ x s, s.length < n → g.part x s = Inner.whole.part x s) →
      ∀ x s, s.length < n + 1 → g.unfold.part x s = Inner.whole.part x s) ∧
    (∀ g n x s, s.length < n → (Inner.unfold^[n] g).part x s = Inner.whole.part x s) ∧
    (∀ g : Inner, g.unfold = g ↔ g = .whole) ∧
    (∀ cs s, Lexeme.ofChars cs = .ok s → Ended s) ∧
    ∀ text, parse text = Inner.whole.parseText text := by
  refine ⟨fun x s ts rest => (Inner.reads_whole x s).reads ts rest, fun lost g s => ?_,
    fun round loop h => ⟨h.advances, fun q => h.solves_iff⟩, fun g n h x s => Inner.unfold_part_agree h x s,
    fun g n x s => Inner.part_iterate g x, fun g => Inner.unfold_eq_self_iff,
    fun cs s => Lexeme.getLast?_ofChars, parse_eq⟩
  exact ⟨Lookahead.localVariables_eq, Lookahead.designation_eq, Lookahead.cast_eq,
    Lookahead.compositeType_eq, Lookahead.declaredVariable_eq⟩

end SharpLint
