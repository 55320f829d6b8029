import SharpLint.Proofs.Change.Sound
import SharpLint.Proofs.Tree.Parts
import SharpLint.Rule.Formatting

/-!
# What the rule for formatting finds

A finding is about the callee of a call, about an operand of a sum, with or without parentheses
around it, or about the expression of a hole (`check_cases`). Each of these has a node around it that
has text of its own.
-/

namespace SharpLint.Rule.Formatting

/-- The node is a child of a sum or of parentheses. -/
def IsOperand (t : Tree) (m : Node) : Prop :=
  ∃ p : Node, p.Inside t ∧ m ∈ p.childNodes ∧ p.kind.takesExpression = true

/-- The node is the expression of a hole of an interpolated string. -/
def IsInHole (t : Tree) (m : Node) : Prop :=
  ∃ p h : Node, p.Inside t ∧ p.kind = .interpolatedStringExpression ∧ h ∈ p.childNodes ∧
    h.kind = .interpolation ∧ h.hole?.bind Node.HoleParts.expression = some m

variable {t : Tree} {b : Bindings}

theorem isOperand_of_isConcatenation {n m : Node} (hn : n.Inside t) (hcat : b.isConcatenation n = true)
    (hm : m ∈ n.childNodes) : IsOperand t m := by
  obtain ⟨hkind, -⟩ := Bool.and_eq_true_iff.mp hcat
  exact ⟨n, hn, hm, by rw [beq_iff_eq.mp hkind]; rfl⟩

theorem IsOperand.inside {m : Node} (h : IsOperand t m) : m.Inside t := by
  obtain ⟨p, hp, hm, -⟩ := h
  exact hp.child hm

/-- The operands of an operand are operands. -/
theorem isOperand_of_mem_operandsUpTo (fuel : Nat) {n m : Node} (hn : IsOperand t n)
    (hm : m ∈ operandsUpTo b fuel n) : IsOperand t m := by
  induction fuel generalizing n with
  | zero => exact List.mem_singleton.mp hm ▸ hn
  | succ fuel ih =>
    rw [operandsUpTo] at hm
    split at hm
    · rename_i hcat
      obtain ⟨c, hc, hm⟩ := List.mem_flatMap.mp hm
      exact ih (isOperand_of_isConcatenation hn.inside hcat hc) hm
    · exact List.mem_singleton.mp hm ▸ hn

/-- What stands in the parentheses around an operand is an operand. -/
theorem IsOperand.unparenthesizeUpTo (fuel : Nat) {n : Node} (hn : IsOperand t n) :
    IsOperand t (n.unparenthesizeUpTo fuel) := by
  induction fuel generalizing n with
  | zero => exact hn
  | succ fuel ih =>
    rw [Node.unparenthesizeUpTo]
    split
    · rename_i hkind
      split
      · rename_i inner hinner
        exact ih ⟨n, hn.inside, List.mem_of_getElem? hinner, by rw [hkind]; rfl⟩
      · exact hn
    · exact hn

/-- The operands that are reported for a chain of sums. -/
theorem of_mem_floatingOperands {n m : Node} (hn : n.Inside t) (hm : m ∈ floatingOperands b n) :
    IsOperand t m ∧ b.isFloatingExpression m = true := by
  unfold floatingOperands at hm
  split at hm
  · rename_i hout
    obtain ⟨hcat, -⟩ := Bool.and_eq_true_iff.mp hout
    obtain ⟨hm, hfloat⟩ := List.mem_filter.mp hm
    obtain ⟨o, ho, rfl⟩ := List.mem_map.mp hm
    -- the outermost node is a sum, so that its operands are below it
    have hheight : n.tree.height = Tree.heightOf n.children + 1 := rfl
    rw [operands, hheight, operandsUpTo, if_pos hcat] at ho
    obtain ⟨c, hc, ho⟩ := List.mem_flatMap.mp ho
    have hoperand := isOperand_of_mem_operandsUpTo _ (isOperand_of_isConcatenation hn hcat hc) ho
    exact ⟨hoperand.unparenthesizeUpTo _, hfloat⟩
  · cases hm

/-- The expressions that are reported for an interpolated string. -/
theorem of_mem_floatingHoles {n m : Node} (hn : n.Inside t)
    (hkind : n.kind = .interpolatedStringExpression) (hm : m ∈ floatingHoles b n) :
    IsInHole t m ∧ b.isFloatingExpression m = true := by
  obtain ⟨hm, hfloat⟩ := List.mem_filter.mp hm
  obtain ⟨h, hh, hexpression⟩ := List.mem_filterMap.mp hm
  rw [Node.holes?, if_pos hkind] at hh
  obtain ⟨hh, hhole⟩ := List.mem_filter.mp hh
  exact ⟨⟨n, h, hn, hkind, hh, beq_iff_eq.mp hhole, hexpression⟩, hfloat⟩

/-- A finding is about a call of `ToString`, or about an operand or the expression of a hole. -/
theorem check_cases {n : Node} {f : Finding} (hn : n.Inside t) (hf : f ∈ check b n) :
    (f.descriptor = explicitDescriptor ∧ f.node = n ∧ n.kind = .simpleMemberAccessExpression ∧
        callsToString b n = true) ∨
      f.descriptor = implicitDescriptor ∧ b.isFloatingExpression f.node = true ∧
        (IsOperand t f.node ∨ IsInHole t f.node) := by
  unfold check at hf
  split at hf
  · rename_i hkind
    split at hf
    · rename_i hcall
      obtain rfl := List.mem_singleton.mp hf
      exact .inl ⟨rfl, rfl, hkind, hcall⟩
    · cases hf
  · obtain ⟨m, hm, rfl⟩ := List.mem_map.mp hf
    obtain ⟨hoperand, hfloat⟩ := of_mem_floatingOperands hn hm
    exact .inr ⟨rfl, hfloat, .inl hoperand⟩
  · rename_i hkind
    obtain ⟨m, hm, rfl⟩ := List.mem_map.mp hf
    obtain ⟨hhole, hfloat⟩ := of_mem_floatingHoles hn hkind hm
    exact .inr ⟨rfl, hfloat, .inr hhole⟩
  · cases hf

end SharpLint.Rule.Formatting
