import Mathlib.Logic.Function.Iterate
import SharpLint.Grammar.Parse
import SharpLint.Proofs.Grammar.InStepUnit

/-!
# The grammar without levels

A level refers to the next lower one behind its first lexeme, so where fewer than `n` lexemes are left,
`n` levels answer alike whatever stands below them (`inStep_iterate`). The grammar that refers to itself
is therefore the only one that does (`unfold_eq_self_iff`):

    Inner.whole                     at s, the level s.length + 1
    whole.unfold = whole            (unfold_whole)
-/

namespace SharpLint

open Production

namespace Inner

/-- What productions refer to. -/
inductive Part
  | type
  | expression
  | unary
  | coalesce
  | binary (least : Nat)
  | pattern
  | negatedPattern
  | initializer
  | block
  | statement
  | member
  | members (stop : TokenKind)

/-- The lexemes that a production has at least; a namespace may have no members. -/
def Part.fewest : Part → Nat
  | .members _ => 0
  | _ => 1

/-- The production of a part. -/
def part (g : Inner) : Part → Production
  | .type => g.type
  | .expression => g.expression
  | .unary => g.unary
  | .coalesce => g.coalesce
  | .binary least => g.binary least
  | .pattern => g.pattern
  | .negatedPattern => g.negatedPattern
  | .initializer => g.initializer
  | .block => g.block
  | .statement => g.statement
  | .member => g.member
  | .members stop => g.members stop

theorem part_members (g : Inner) (stop : TokenKind) : g.part (.members stop) = g.members stop := rfl

/-- A production for each part. -/
def ofParts (p : Part → Production) : Inner where
  type := p .type
  expression := p .expression
  unary := p .unary
  coalesce := p .coalesce
  binary least := p (.binary least)
  pattern := p .pattern
  negatedPattern := p .negatedPattern
  initializer := p .initializer
  block := p .block
  statement := p .statement
  member := p .member
  members stop := p (.members stop)

theorem part_ofParts (p : Part → Production) (x : Part) : (ofParts p).part x = p x := by
  cases x with
  | _ => rfl

theorem ofParts_part (g : Inner) : ofParts g.part = g := rfl

theorem ext_part {g g' : Inner} (h : ∀ x, g.part x = g'.part x) : g = g' := by
  rw [← ofParts_part g, ← ofParts_part g', funext h]

/-- The productions, each with `g` for what it refers to. -/
def unfold (g : Inner) : Inner where
  type := Grammar.type g
  expression := Grammar.expression g
  unary := Grammar.unary g
  coalesce := Grammar.coalesce g
  binary := Grammar.binary g
  pattern := Grammar.pattern g
  negatedPattern := Grammar.negatedPattern g
  initializer := Grammar.initializer g
  block := Grammar.block g
  statement := Grammar.statement g
  member := Grammar.member g
  members := Grammar.members g

theorem level_eq_iterate (n : Nat) : level n = unfold^[n] nothing := by
  induction n with
  | zero => rfl
  | succ n ih =>
    rw [Function.iterate_succ_apply', ← ih]
    rfl

/-! ## Levels in step -/

section

variable {m n : Nat} {g g' : Inner}

theorem InStep.of_parts (h : ∀ x, Production.InStep n 0 (g.part x) (g'.part x)) : g.InStep n g' where
  type := h .type
  expression := h .expression
  unary := h .unary
  coalesce := h .coalesce
  binary least := h (.binary least)
  pattern := h .pattern
  negatedPattern := h .negatedPattern
  initializer := h .initializer
  block := h .block
  statement := h .statement
  member := h .member
  members stop := h (.members stop)

theorem InStep.part (h : g.InStep n g') (x : Part) : Production.InStep n 0 (g.part x) (g'.part x) := by
  cases x with
  | type => exact h.type
  | expression => exact h.expression
  | unary => exact h.unary
  | coalesce => exact h.coalesce
  | binary least => exact h.binary least
  | pattern => exact h.pattern
  | negatedPattern => exact h.negatedPattern
  | initializer => exact h.initializer
  | block => exact h.block
  | statement => exact h.statement
  | member => exact h.member
  | members stop => exact h.members stop

/-- References come behind the first lexeme, so that they may agree on fewer lexemes. -/
theorem InStep.unfold_part (h : g.InStep n g') (x : Part) :
    Production.InStep (n + 1) x.fewest (g.unfold.part x) (g'.unfold.part x) := by
  cases x with
  | type => exact Grammar.inStep_type h
  | expression => exact Grammar.inStep_expression h
  | unary => exact Grammar.inStep_unary h
  | coalesce => exact Grammar.inStep_coalesce h
  | binary least => exact Grammar.inStep_binary h least
  | pattern => exact Grammar.inStep_pattern h
  | negatedPattern => exact Grammar.inStep_negatedPattern h
  | initializer => exact Grammar.inStep_initializer h
  | block => exact Grammar.inStep_block h
  | statement => exact Grammar.inStep_statement h
  | member => exact Grammar.inStep_member h
  | members stop => exact Grammar.inStep_members h stop

theorem InStep.unfold (h : g.InStep n g') : g.unfold.InStep (n + 1) g'.unfold :=
  .of_parts fun x => (h.unfold_part x).mono (Nat.le_refl _) (Nat.zero_le _)

/-- Where fewer than `n` lexemes are left, `n` levels hide what stands below them. -/
theorem inStep_iterate (g g' : Inner) (n : Nat) : (unfold^[n] g).InStep n (unfold^[n] g') := by
  induction n with
  | zero => exact .of_parts fun _ _ hs => absurd hs (Nat.not_lt_zero _)
  | succ n ih =>
    rw [Function.iterate_succ_apply', Function.iterate_succ_apply']
    exact ih.unfold

theorem inStep_level (h : n ≤ m) : (level n).InStep n (level m) := by
  obtain ⟨k, rfl⟩ := Nat.exists_eq_add_of_le h
  rw [level_eq_iterate, level_eq_iterate, Function.iterate_add_apply]
  exact inStep_iterate ..

end

/-! ## The whole grammar -/

/-- The productions with all that they refer to: at each place, a level higher than lexemes are left. -/
def whole : Inner := ofParts fun x s => (level (s.length + 1)).part x s

theorem part_whole (x : Part) (s : List Lexeme) :
    whole.part x s = (level (s.length + 1)).part x s := by
  rw [whole, part_ofParts]

theorem part_level {n : Nat} {s : List Lexeme} (x : Part) (hs : s.length < n) :
    (level n).part x s = whole.part x s := by
  rw [part_whole, ((inStep_level hs).part x s (Nat.lt_succ_self _)).same]

theorem inStep_whole (n : Nat) : whole.InStep n (level n) := by
  refine .of_parts fun x s hs => ⟨(part_level x hs).symm, fun ts rest hok => ?_⟩
  rw [← part_level x hs] at hok
  exact ((inStep_level (Nat.le_refl n)).part x s hs).reads ts rest hok

/-- The whole grammar refers to itself. -/
theorem unfold_whole : whole.unfold = whole := by
  refine ext_part fun x => funext fun s => ?_
  have hlevel : whole.unfold.part x s = (level (s.length + 1)).part x s :=
    ((inStep_whole s.length).unfold_part x s (Nat.lt_succ_self _)).same
  rw [hlevel, part_whole]

/-- Levels above what is left of the text hide what stands below them. -/
theorem part_iterate (g : Inner) {n : Nat} {s : List Lexeme} (x : Part) (hs : s.length < n) :
    (unfold^[n] g).part x s = whole.part x s := by
  rw [← part_level x hs, level_eq_iterate]
  exact ((inStep_iterate g nothing n).part x s hs).same

/-- No other grammar refers to itself. -/
theorem unfold_eq_self_iff {g : Inner} : g.unfold = g ↔ g = whole := by
  constructor
  · intro hg
    refine ext_part fun x => funext fun s => ?_
    rw [← part_iterate g x (Nat.lt_succ_self s.length), Function.iterate_fixed hg]
  · rintro rfl
    exact unfold_whole

/-- The whole grammar is in step with itself for any number of lexemes. -/
theorem inStep_self (n : Nat) : whole.InStep n whole := by
  have hn := inStep_iterate whole whole n
  rwa [Function.iterate_fixed unfold_whole] at hn

/-- Each part reads as many lexemes as it has at least. -/
def Reads (g : Inner) : Prop := ∀ x s, InStepAt x.fewest (g.part x) (g.part x) s

theorem Reads.inStep {g : Inner} (h : g.Reads) (n : Nat) : g.InStep n g :=
  .of_parts fun x s _ => (h x s).mono (Nat.zero_le _)

theorem Reads.unfold {g : Inner} (h : g.Reads) : g.unfold.Reads :=
  fun x s => (h.inStep s.length).unfold_part x s (Nat.lt_succ_self _)

theorem reads_whole : whole.Reads := by
  intro x s
  have hx := (inStep_self s.length).unfold_part x s (Nat.lt_succ_self _)
  rwa [unfold_whole] at hx

end Inner

/-- A compilation unit is read with the whole grammar. -/
theorem compilationUnit_eq (s : List Lexeme) :
    compilationUnit s =
      (seq [Inner.whole.members .endOfFile, bump] s).map fun read => .node .compilationUnit read.1 := by
  have hmembers : (Inner.level (s.length + 1)).members .endOfFile s =
      Inner.whole.members .endOfFile s := by
    rw [← Inner.part_members, ← Inner.part_members, Inner.part_level _ (Nat.lt_succ_self _)]
  have hseq : seq [(Inner.level (s.length + 1)).members .endOfFile, bump] s =
      seq [Inner.whole.members .endOfFile, bump] s := by
    simp only [seq, Production.andThen, hmembers]
  rw [compilationUnit, hseq]
  generalize seq [Inner.whole.members .endOfFile, bump] s = read
  cases read with
  | error e => rfl
  | ok read => rfl

end SharpLint
