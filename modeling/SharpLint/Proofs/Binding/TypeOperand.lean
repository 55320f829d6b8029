import SharpLint.Proofs.Binding.Host

/-!
# Types that expressions name

A cast, a conversion with `as` and a default value name the type of their value. The binder takes the
first child that has the form of a type. In `(T)e` and `default(T)` that is `T`. In `e as T` the operand
comes first, and a bare name or a keyword has the form of a type, too:

    n.declaredType? = (n.converted?.filter (·.kind.isTypeForm)).or n.typeOperand?    (declaredType?_eq)

So the type is `T` unless such an operand stands in front of it and its text names another one
(`typeOf?_typeOperand_iff`).
-/

namespace SharpLint

/-- The kinds of `(T)e`, `e as T` and `default(T)`. -/
def NodeKind.namesType : NodeKind → Bool
  | .castExpression | .asExpression | .defaultExpression => true
  | _ => false

namespace Node

/-- The type `T` of `(T)e`, `e as T` and `default(T)`. -/
def typeOperand? (n : Node) : Option Node :=
  match n.kind with
  | .castExpression | .defaultExpression => n.childNode? 0
  | .asExpression => n.childNode? 1
  | _ => none

/-- The operand `e` of `e as T`. -/
def converted? (n : Node) : Option Node := if n.kind = .asExpression then n.childNode? 0 else none

/-- The first child in the form of a type is the type, but for a converted operand of that form. -/
theorem declaredType?_eq {n : Node} (h : n.tree.Shaped) (hk : n.kind.namesType = true) :
    ∃ type, n.typeOperand? = some type ∧ type.kind.isTypeForm = true ∧
      n.declaredType? = (n.converted?.filter (·.kind.isTypeForm)).or (some type) := by
  unfold declaredType? typeOperand? converted? childNode?
  cases hkind : n.kind
  case castExpression =>
    obtain ⟨type, operand, hnodes, htype, -⟩ := childNodes_cast h hkind
    exact ⟨type, by rw [hnodes]; rfl, htype, by rw [hnodes]; exact List.find?_cons_of_pos htype⟩
  case defaultExpression =>
    obtain ⟨type, hnodes, htype⟩ := childNodes_default h hkind
    exact ⟨type, by rw [hnodes]; rfl, htype, by rw [hnodes]; exact List.find?_cons_of_pos htype⟩
  case asExpression =>
    obtain ⟨operand, type, hnodes, -, htype⟩ := childNodes_conversion h hkind
    refine ⟨type, by rw [hnodes]; rfl, htype, ?_⟩
    rw [hnodes, List.find?_cons, List.find?_singleton, if_pos htype, if_pos rfl,
      List.getElem?_cons_zero, Option.filter_some]
    cases operand.kind.isTypeForm with
    | true => rfl
    | false => rfl
  all_goals
    rw [hkind] at hk
    cases hk

end Node

theorem TypeInfo.of_inj {t u : TypeRef} : TypeInfo.of t = TypeInfo.of u ↔ t = u := by
  refine ⟨fun h => ?_, congrArg _⟩
  exact Option.some.inj (congrArg TypeInfo.type h)

/-- A type has the name that is written, but for `var`. -/
theorem TypeRef.ofNode?_of_ne {n : Node} (h : n.text ≠ "var") :
    TypeRef.ofNode? n = some (.ofName n.text) :=
  if_neg fun hvar => h hvar.2

namespace Scope

/-- The binder looks for the type among the children. -/
theorem typeOf?_of_namesType (scope : Scope) {n : Node} (hk : n.kind.namesType = true) :
    scope.typeOf? n = n.declaredType?.bind TypeRef.ofNode? := by
  unfold typeOf? typeUpTo
  cases hkind : n.kind
  case castExpression => rfl
  case asExpression => rfl
  case defaultExpression => rfl
  all_goals
    rw [hkind] at hk
    cases hk

end Scope

/-- In a document of parsed sources every cast, conversion and default value has a type operand. Its
type is the one with that name exactly if a converted operand in the form of a type names it, too. -/
theorem Workspace.typeOf?_typeOperand_iff {sources : List (String × String)} {w : Workspace}
    (hw : ofSources sources = .ok w) {d : Document} (hd : d ∈ w.snapshot.documents) {n : Node}
    (hn : n ∈ d.rootNode.descendants) (hk : n.kind.namesType = true) :
    ∃ b type, w.host.bindings? d.id = some b ∧ n.typeOperand? = some type ∧
      type.kind.isTypeForm = true ∧ (type.text ≠ "var" →
        (b.typeOf? n = some (.of (.ofName type.text)) ↔
          ∀ e, n.converted? = some e → e.kind.isTypeForm = true →
            TypeRef.ofNode? e = some (.ofName type.text))) := by
  have hs := sound_snapshot hw
  have hshaped : n.tree.Shaped :=
    (Node.mem_descendants_root.mp hn).shaped (hs.root d hd).shaped
  obtain ⟨type, htype, hform, hdeclared⟩ := Node.declaredType?_eq hshaped hk
  have hbindings : w.host.bindings? d.id =
      some (Scope.ofDocument (SymbolTable.ofSnapshot w.snapshot) d).bindings := by
    rw [(ofSources_eq_ok hw).2]
    exact bindings?_host hd
  refine ⟨_, type, hbindings, htype, hform, fun hvar => ?_⟩
  show (Scope.typeOf? _ n).map TypeInfo.of = _ ↔ _
  rw [Scope.typeOf?_of_namesType _ hk, hdeclared, Option.map_eq_some_iff]
  simp only [TypeInfo.of_inj, exists_eq_right]
  cases hconverted : n.converted? with
  | none => simp [TypeRef.ofNode?_of_ne hvar]
  | some e =>
    cases hshadow : e.kind.isTypeForm with
    | true => simp [Option.filter_some, hshadow]
    | false => simp [Option.filter_some, hshadow, TypeRef.ofNode?_of_ne hvar]

/-- A converted call. -/
def convertedCall : String :=
  "class C \x7b object F(object x) \x7b return F(x) as string; \x7d \x7d"

theorem Workspace.typeOf?_typeOperand_iff_convertedCall :
    ∃ w d n b type, ofSources [("A.cs", convertedCall)] = .ok w ∧ d ∈ w.snapshot.documents ∧
      n ∈ d.rootNode.descendants ∧ n.kind = .asExpression ∧ n.text = "F(x) as string" ∧
      w.host.bindings? d.id = some b ∧ n.typeOperand? = some type ∧ type.text = "string" ∧
      b.typeOf? n = some (.of (.ofName "string")) := by
  have hrun : ((ofSources [("A.cs", convertedCall)]).toOption.any fun w =>
      w.snapshot.documents.any fun d => d.rootNode.descendants.any fun n =>
        decide (n.kind = .asExpression ∧ n.text = "F(x) as string" ∧
          n.typeOperand?.map Node.text = some "string" ∧
          n.converted?.map (·.kind.isTypeForm) = some false)) = true := by
    decide +kernel
  cases hw : ofSources [("A.cs", convertedCall)] with
  | error e => rw [hw] at hrun; cases hrun
  | ok w =>
    rw [hw] at hrun
    obtain ⟨d, hd, hrun⟩ := List.any_eq_true.mp hrun
    obtain ⟨n, hn, hrun⟩ := List.any_eq_true.mp hrun
    obtain ⟨hkind, htext, htype, hcall⟩ := of_decide_eq_true hrun
    obtain ⟨b, type, hb, hoperand, -, hiff⟩ := typeOf?_typeOperand_iff hw hd hn (by rw [hkind]; rfl)
    rw [hoperand, Option.map_some, Option.some.injEq] at htype
    have hname := (hiff (by rw [htype]; decide)).mpr fun e he hform => by
      rw [he, Option.map_some, hform] at hcall
      cases hcall
    exact ⟨w, d, n, b, type, rfl, hd, hn, hkind, htext, hb, hoperand, htype, htype ▸ hname⟩

/-- A converted name. -/
def convertedName : String :=
  "class C \x7b object F(object x) \x7b return x as string; \x7d \x7d"

/-- A name in front of `as` is taken for the type. -/
theorem Workspace.typeOf?_of_convertedName :
    ∃ w d n b type, ofSources [("A.cs", convertedName)] = .ok w ∧ d ∈ w.snapshot.documents ∧
      n ∈ d.rootNode.descendants ∧ n.kind = .asExpression ∧ n.text = "x as string" ∧
      w.host.bindings? d.id = some b ∧ n.typeOperand? = some type ∧ type.text = "string" ∧
      b.typeOf? n = some (.of (.named "x")) ∧
      b.typeOf? n ≠ some (.of (.ofName type.text)) := by
  have hrun : ((ofSources [("A.cs", convertedName)]).toOption.any fun w =>
      w.snapshot.documents.any fun d => d.rootNode.descendants.any fun n =>
        (w.host.bindings? d.id).any fun b =>
          decide (n.kind = .asExpression ∧ n.text = "x as string" ∧
            n.typeOperand?.map Node.text = some "string" ∧
            b.typeOf? n = some (.of (.named "x")))) = true := by
    decide +kernel
  cases hw : ofSources [("A.cs", convertedName)] with
  | error e => rw [hw] at hrun; cases hrun
  | ok w =>
    rw [hw] at hrun
    obtain ⟨d, hd, hrun⟩ := List.any_eq_true.mp hrun
    obtain ⟨n, hn, hrun⟩ := List.any_eq_true.mp hrun
    obtain ⟨b, hb, hrun⟩ := (Option.any_eq_true _ _).mp hrun
    obtain ⟨hkind, htext, htype, hname⟩ := of_decide_eq_true hrun
    obtain ⟨type, hoperand, htype⟩ := Option.map_eq_some_iff.mp htype
    refine ⟨w, d, n, b, type, rfl, hd, hn, hkind, htext, hb, hoperand, htype, hname, ?_⟩
    rw [hname, htype]
    decide +kernel

end SharpLint
