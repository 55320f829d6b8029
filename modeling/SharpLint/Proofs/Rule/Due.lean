import SharpLint.Proofs.Binding.Aspect

/-!
# What is due in a skeleton

Three things are reported and fixed: a call of `ToString` of a floating-point value, a floating-point
value that is turned into text, and a public type in a support namespace. Whether a place of a skeleton
is due depends on the skeleton there and on its `Situation`, which is handed down from the root.

A skeleton may be put in the place of another one if the two are `Alike`: they have the same aspect, or
the new one is text and stands where an operand of a concatenation does. Then nothing changes around the
place (`Put.carry`), and what is due at the place and below it is due in the new skeleton for itself
(`dueAt_append`).
-/

namespace SharpLint

/-! ## Situations -/

/-- What is reported. -/
inductive Cause where
  /-- A call of `ToString`. -/
  | call
  /-- A value that is turned into text, or the hole that it stands in. -/
  | text
  | visibility
  deriving DecidableEq

/-- What the node around a place does with the value there. -/
inductive Use where
  | plain
  /-- The place is an operand of a concatenation, with or without parentheses around it. -/
  | operand
  /-- The place is a part of an interpolated string. -/
  | part
  deriving DecidableEq

/-- What is known at a place of what is around it. -/
structure Situation where
  names : List (Option String)
  use : Use
  /-- The place is directly in a support namespace. -/
  inSupport : Bool
  deriving DecidableEq

/-- At the root. -/
def Situation.root : Situation := ⟨[], .plain, false⟩

def Scope.isFloating (t : Option TypeRef) : Bool := t.any (·.special.isFloatingPoint)

namespace Skeleton

variable (scope : Scope) (start : String)

/-- The names in a node. -/
def namesIn (σ : Situation) (head : Head) (cs : List Skeleton) : List (Option String) :=
  (ownName? head.kind cs).toList ++ σ.names

def typeIn (σ : Situation) (t : Skeleton) : Option TypeRef :=
  (t.aspect? scope σ.names).bind Aspect.type

/-- The situation of the children of a node. -/
def down (σ : Situation) (head : Head) (cs : List Skeleton) : Situation where
  names := namesIn σ head cs
  use := match head.kind with
    | .addExpression =>
      if Scope.isString (typeIn scope σ (.node head cs)) then .operand else .plain
    | .parenthesizedExpression => if σ.use = .operand then .operand else .plain
    | .interpolatedStringExpression => .part
    | _ => .plain
  inSupport := head.kind.isNamespaceDeclaration &&
    (ownName? head.kind cs).any fun name => name.any fun name => start.toList.isPrefixOf name.toList

/-- The node is to be fixed. -/
def isDue (σ : Situation) (head : Head) (cs : List Skeleton) : Cause → Bool
  | .call => head.kind == .invocationExpression &&
    (aspects scope (namesIn σ head cs) cs)[0]?.any fun a =>
      a.member.any (· == "ToString") && Scope.isFloating a.inner
  | .text =>
    (head.kind == .interpolation && σ.use == .part &&
      (aspects scope (namesIn σ head cs) cs)[0]?.any fun a => Scope.isFloating a.type) ||
    (σ.use == .operand && head.kind != .parenthesizedExpression &&
      Scope.isFloating (typeIn scope σ (.node head cs)))
  | .visibility => σ.inSupport && head.kind.isTypeDeclaration && head.isPublic

/-- There is a node at the path, and it is to be fixed. -/
def DueAt (c : Cause) : Situation → Skeleton → List Nat → Prop
  | _, .word _ _, _ => False
  | σ, .node head cs, [] => isDue scope σ head cs c = true
  | σ, .node head cs, i :: path =>
    ∃ d, cs[i]? = some d ∧ DueAt c (down scope start σ head cs) d path

/-- The situation at a path. -/
def situation (σ : Situation) (t : Skeleton) : List Nat → Situation
  | [] => σ
  | i :: path =>
    match t with
    | .word _ _ => σ
    | .node head cs =>
      match cs[i]? with
      | some d => situation (down scope start σ head cs) d path
      | none => σ

/-- What stands at a path. -/
def at? (t : Skeleton) : List Nat → Option Skeleton
  | [] => some t
  | i :: path =>
    match t with
    | .word _ _ => none
    | .node _ cs => cs[i]?.bind fun d => at? d path

/-- Something in the skeleton is due. -/
def Has (cause : Cause) (σ : Situation) (t : Skeleton) : Prop :=
  ∃ path, DueAt scope start cause σ t path

/-- Something below the node is due. -/
def HasBelow (cause : Cause) (σ : Situation) : Skeleton → Prop
  | .word _ _ => False
  | .node head cs => ∃ d ∈ cs, Has scope start cause (down scope start σ head cs) d

/-- The second node may take the place of the first one. -/
def Alike (σ : Situation) (s r : Skeleton) : Prop :=
  ∃ a b, s.aspect? scope σ.names = some a ∧ r.aspect? scope σ.names = some b ∧
    (a = b ∨ σ.use = .operand ∧ Scope.isString b.type = true)

/-! ## A child that is alike -/

variable {scope : Scope} {start : String} {σ : Situation} {head : Head} {left right : List Skeleton}
  {c c' : Skeleton}

theorem word?_of_aspect {names : List (Option String)} {a : Aspect}
    (h : c.aspect? scope names = some a) : c.word? = none := by
  cases c with
  | word k text => cases h
  | node head cs => rfl

theorem head?_of_aspect {names : List (Option String)} {a : Aspect}
    (h : c.aspect? scope names = some a) :
    ∃ head, c.head? = some head ∧ head.kind = a.kind ∧ head.name = a.name := by
  cases c with
  | word k text => cases h
  | node head cs =>
    obtain rfl := Option.some.inj h
    exact ⟨head, rfl, rfl, rfl⟩

theorem words_append {names : List (Option String)} {a : Aspect}
    (h : c.aspect? scope names = some a) :
    (left ++ c :: right).filterMap word? = left.filterMap word? ++ right.filterMap word? := by
  rw [List.filterMap_append, List.filterMap_cons_none (word?_of_aspect h)]

theorem aspects_append {names : List (Option String)} {a : Aspect}
    (h : c.aspect? scope names = some a) : aspects scope names (left ++ c :: right) =
      aspects scope names left ++ a :: aspects scope names right := by
  rw [aspects_eq_filterMap, List.filterMap_append, List.filterMap_cons_some h,
    ← aspects_eq_filterMap, ← aspects_eq_filterMap]

/-- A name comes from words and from nodes with their kinds and names. -/
theorem ownName?_congr (k : NodeKind) {names : List (Option String)} {a b : Aspect}
    (hc : c.aspect? scope names = some a) (hc' : c'.aspect? scope names = some b)
    (hkind : a.kind = b.kind) (hname : a.name = b.name) :
    ownName? k (left ++ c' :: right) = ownName? k (left ++ c :: right) := by
  obtain ⟨head, hhead, hk, hn⟩ := head?_of_aspect hc
  obtain ⟨head', hhead', hk', hn'⟩ := head?_of_aspect hc'
  have hfind : (((left ++ c' :: right).filterMap head?).find? fun head =>
        Rule.SupportNamespace.isName head.kind).map Head.name =
      (((left ++ c :: right).filterMap head?).find? fun head =>
        Rule.SupportNamespace.isName head.kind).map Head.name := by
    rw [List.filterMap_append, List.filterMap_append, List.filterMap_cons_some hhead,
      List.filterMap_cons_some hhead', List.find?_append, List.find?_append, List.find?_cons,
      List.find?_cons, hk, hk', hkind]
    cases (left.filterMap head?).find? fun head => Rule.SupportNamespace.isName head.kind with
    | some found => rfl
    | none =>
      cases Rule.SupportNamespace.isName b.kind with
      | true =>
        show some head'.name = some head.name
        rw [hn, hn', hname]
      | false => rfl
  rw [ownName?, ownName?, words_append hc, words_append hc', hfind]

theorem ownName?_eq_none {k : NodeKind} (htype : k.isTypeDeclaration = false)
    (hspace : k.isNamespaceDeclaration = false) (cs : List Skeleton) : ownName? k cs = none := by
  rw [ownName?, htype, hspace]
  rfl

/-- The kinds that hand an operand down to what stands in them. -/
theorem down_operand_iff {cs : List Skeleton} :
    (down scope start σ head cs).use = .operand ↔
      head.kind = .addExpression ∧ Scope.isString (typeIn scope σ (.node head cs)) = true ∨
      head.kind = .parenthesizedExpression ∧ σ.use = .operand := by
  unfold down
  dsimp only
  split
  · rename_i hk
    simp [hk]
  · rename_i hk
    simp [hk]
  · rename_i hk
    simp [hk]
  · rename_i hadd hparenthesized _
    exact iff_of_false nofun (not_or.mpr ⟨fun h => hadd h.1, fun h => hparenthesized h.1⟩)

theorem down_part_iff {cs : List Skeleton} :
    (down scope start σ head cs).use = .part ↔ head.kind = .interpolatedStringExpression := by
  obtain ⟨k, name, shown⟩ := head
  unfold down
  dsimp only
  split
  · split
    · simp
    · simp
  · split
    · simp
    · simp
  · simp
  · simp_all

/-- The children see nothing new if the node around them has the same aspect. -/
theorem down_congr {cs cs' : List Skeleton}
    (hown : ownName? head.kind cs' = ownName? head.kind cs)
    (haspect : (node head cs').aspect? scope σ.names = (node head cs).aspect? scope σ.names) :
    down scope start σ head cs' = down scope start σ head cs := by
  rw [down, down, namesIn, namesIn, typeIn, typeIn, hown, haspect]

theorem isDue_congr {cs cs' : List Skeleton}
    (haspect : (node head cs').aspect? scope σ.names = (node head cs).aspect? scope σ.names)
    (hfirst : head.kind = .invocationExpression ∨ head.kind = .interpolation →
      (aspects scope (namesIn σ head cs') cs')[0]? = (aspects scope (namesIn σ head cs) cs)[0]?)
    (cause : Cause) : isDue scope σ head cs' cause = isDue scope σ head cs cause := by
  cases cause with
  | call =>
    by_cases hk : head.kind = .invocationExpression
    · rw [isDue, isDue, hfirst (.inl hk)]
    · rw [isDue, isDue, beq_eq_false_iff_ne.mpr hk, Bool.false_and, Bool.false_and]
  | text =>
    rw [isDue, isDue, typeIn, typeIn, haspect]
    by_cases hk : head.kind = .interpolation
    · rw [hfirst (.inr hk)]
    · simp only [beq_eq_false_iff_ne.mpr hk, Bool.false_and]
  | visibility => rfl

theorem isString_promote? (l r : TypeRef) : Scope.isString (l.promote? r) = false := by
  have hof (t : SpecialType) : (TypeRef.ofSpecial t).special = t := by
    rw [TypeRef.ofSpecial]
    split
    · rfl
    · rfl
  have hwider {t : SpecialType} {i : Nat} (h : t.rank? = some i) : Scope.isString
      (if t.rank? = some 0 then some (.ofSpecial .int32) else some (.ofSpecial t)) = false := by
    split
    · rfl
    · show ((TypeRef.ofSpecial t).special == .string) = false
      rw [hof, beq_eq_false_iff_ne]
      rintro rfl
      cases h
  unfold TypeRef.promote?
  split
  · rename_i i j hl hr
    dsimp only
    split
    · exact hwider hl
    · exact hwider hr
  · rfl

/-- The type of a concatenation. -/
theorem arithmeticType?_of_isString {l r : Option TypeRef}
    (h : Scope.isString (Scope.arithmeticType? .addExpression l r) = true) :
    Scope.arithmeticType? .addExpression l r = some (.ofSpecial .string) := by
  unfold Scope.arithmeticType? at h ⊢
  split at h
  · rename_i hstring
    rw [if_pos hstring]
  · split at h
    · rw [isString_promote?] at h
      cases h
    · cases h

theorem arithmeticType?_of_operand {l r : Option TypeRef}
    (h : Scope.isString l = true ∨ Scope.isString r = true) :
    Scope.arithmeticType? .addExpression l r = some (.ofSpecial .string) := by
  unfold Scope.arithmeticType?
  rw [if_pos]
  rcases h with h | h
  · rw [h]
    rfl
  · rw [h, Bool.or_true]
    rfl

/-- What a sum is; it has the names around it. -/
theorem aspect?_sum {cs : List Skeleton} (hk : head.kind = .addExpression) :
    (node head cs).aspect? scope σ.names = some ⟨.addExpression, head.name, none,
      if !(aspects scope σ.names cs)[0]?.isSome || !(aspects scope σ.names cs)[1]?.isSome then none
      else Scope.arithmeticType? .addExpression ((aspects scope σ.names cs)[0]?.bind Aspect.type)
        ((aspects scope σ.names cs)[1]?.bind Aspect.type), none, none⟩ := by
  obtain ⟨k, name, shown⟩ := head
  obtain rfl : k = .addExpression := hk
  rfl

/-- What parentheses are; they have the names around them. -/
theorem aspect?_parentheses {cs : List Skeleton} (hk : head.kind = .parenthesizedExpression) :
    (node head cs).aspect? scope σ.names = some ⟨.parenthesizedExpression, head.name,
      (aspects scope σ.names cs)[0]?.bind Aspect.symbol,
      (aspects scope σ.names cs)[0]?.bind Aspect.type, none, none⟩ := by
  obtain ⟨k, name, shown⟩ := head
  obtain rfl : k = .parenthesizedExpression := hk
  rfl

theorem namesIn_eq {cs : List Skeleton} (htype : head.kind.isTypeDeclaration = false)
    (hspace : head.kind.isNamespaceDeclaration = false) : namesIn σ head cs = σ.names := by
  rw [namesIn, ownName?_eq_none htype hspace]
  rfl

theorem getElem?_beside {α : Type} (ls rs : List α) (a b : α) {i : Nat} (hi : i ≠ ls.length) :
    (ls ++ b :: rs)[i]? = (ls ++ a :: rs)[i]? := by
  simp only [List.getElem?_append, List.getElem?_cons]
  split
  · rfl
  · rw [if_neg (by omega), if_neg (by omega)]

theorem getElem?_replaced {α : Type} (ls rs : List α) (a b : α) (i : Nat) :
    (ls ++ b :: rs)[i]? = (ls ++ a :: rs)[i]? ∨ (ls ++ b :: rs)[i]? = some b := by
  by_cases hi : i = ls.length
  · right
    rw [hi]
    simp
  · exact .inl (getElem?_beside ls rs a b hi)

/-- A sum that is text stays so when text takes the place of an operand. -/
theorem aspect?_sum_replaced {a b : Aspect} (hk : head.kind = .addExpression)
    (ha : c.aspect? scope σ.names = some a) (hb : c'.aspect? scope σ.names = some b)
    (hsum : Scope.isString (typeIn scope σ (.node head (left ++ c :: right))) = true)
    (hstring : Scope.isString b.type = true) :
    (node head (left ++ c' :: right)).aspect? scope σ.names =
      (node head (left ++ c :: right)).aspect? scope σ.names := by
  have hsome (i : Nat) : (aspects scope σ.names (left ++ c' :: right))[i]?.isSome =
      (aspects scope σ.names (left ++ c :: right))[i]?.isSome := by
    rw [aspects_append ha, aspects_append hb]
    rw [Bool.eq_iff_iff]
    simp
  have hoperand (i : Nat) : (aspects scope σ.names (left ++ c' :: right))[i]?.bind Aspect.type =
        (aspects scope σ.names (left ++ c :: right))[i]?.bind Aspect.type ∨
      Scope.isString ((aspects scope σ.names (left ++ c' :: right))[i]?.bind Aspect.type) = true := by
    rw [aspects_append ha, aspects_append hb]
    rcases getElem?_replaced (aspects scope σ.names left) (aspects scope σ.names right) a b i
      with h | h
    · exact .inl (by rw [h])
    · exact .inr (by rw [h]; exact hstring)
  rw [typeIn, aspect?_sum hk] at hsum
  rw [aspect?_sum hk, aspect?_sum hk, hsome, hsome]
  by_cases hnone : (!(aspects scope σ.names (left ++ c :: right))[0]?.isSome ||
      !(aspects scope σ.names (left ++ c :: right))[1]?.isSome) = true
  · rw [if_pos hnone, if_pos hnone]
  · rw [if_neg hnone, if_neg hnone]
    dsimp only [Option.bind_some] at hsum
    rw [if_neg hnone] at hsum
    rw [arithmeticType?_of_isString hsum]
    rcases hoperand 0 with hleft | hleft
    · rcases hoperand 1 with hright | hright
      · rw [hleft, hright, arithmeticType?_of_isString hsum]
      · rw [arithmeticType?_of_operand (.inr hright)]
    · rw [arithmeticType?_of_operand (.inl hleft)]

/-- A child is replaced by one that is alike: so is the node, its children see the same, and it is due
as before. -/
theorem Alike.node (h : Alike scope (down scope start σ head (left ++ c :: right)) c c') :
    Alike scope σ (.node head (left ++ c :: right)) (.node head (left ++ c' :: right)) ∧
      down scope start σ head (left ++ c' :: right) = down scope start σ head (left ++ c :: right) ∧
      ∀ cause, isDue scope σ head (left ++ c' :: right) cause =
        isDue scope σ head (left ++ c :: right) cause := by
  obtain ⟨a, b, ha, hb, rfl | ⟨huse, hstring⟩⟩ := h
  · have hown : ownName? head.kind (left ++ c' :: right) = ownName? head.kind (left ++ c :: right) :=
      ownName?_congr head.kind ha hb rfl rfl
    have hnames : namesIn σ head (left ++ c' :: right) = namesIn σ head (left ++ c :: right) := by
      rw [namesIn, namesIn, hown]
    have haspects : aspects scope (namesIn σ head (left ++ c' :: right)) (left ++ c' :: right) =
        aspects scope (namesIn σ head (left ++ c :: right)) (left ++ c :: right) := by
      rw [hnames]
      exact (aspects_append hb).trans (aspects_append ha).symm
    have haspect : (Skeleton.node head (left ++ c' :: right)).aspect? scope σ.names =
        (Skeleton.node head (left ++ c :: right)).aspect? scope σ.names := by
      show some (Aspect.of scope (namesIn σ head _) head _ (aspects scope (namesIn σ head _) _)) =
        some (Aspect.of scope (namesIn σ head _) head _ (aspects scope (namesIn σ head _) _))
      rw [haspects, hnames, words_append ha, words_append hb]
    exact ⟨⟨_, _, rfl, haspect, .inl rfl⟩, down_congr hown haspect,
      isDue_congr haspect fun _ => by rw [haspects]⟩
  · rcases down_operand_iff.mp huse with ⟨hk, hsum⟩ | ⟨hk, huse⟩
    · have hown (cs : List Skeleton) : ownName? head.kind cs = none :=
        ownName?_eq_none (by rw [hk]; rfl) (by rw [hk]; rfl) cs
      rw [show (down scope start σ head (left ++ c :: right)).names = σ.names from
        namesIn_eq (by rw [hk]; rfl) (by rw [hk]; rfl)] at ha hb
      have haspect := aspect?_sum_replaced hk ha hb hsum hstring
      refine ⟨⟨_, _, rfl, haspect, .inl rfl⟩, down_congr ((hown _).trans (hown _).symm) haspect,
        isDue_congr haspect fun hother => ?_⟩
      rw [hk] at hother
      rcases hother with hother | hother
      · cases hother
      · cases hother
    · rw [show (down scope start σ head (left ++ c :: right)).names = σ.names from
        namesIn_eq (by rw [hk]; rfl) (by rw [hk]; rfl)] at ha hb
      refine ⟨⟨_, _, aspect?_parentheses hk, aspect?_parentheses hk, ?_⟩, ?_, fun cause => ?_⟩
      · rw [aspects_append ha, aspects_append hb]
        rcases getElem?_replaced (aspects scope σ.names left) (aspects scope σ.names right) a b 0
          with hfirst | hfirst
        · exact .inl (by rw [hfirst])
        · exact .inr ⟨huse, by rw [hfirst]; exact hstring⟩
      · rw [down, down, hk, namesIn_eq (by rw [hk]; rfl) (by rw [hk]; rfl),
          namesIn_eq (by rw [hk]; rfl) (by rw [hk]; rfl)]
        rfl
      · cases cause with
        | call => rw [isDue, isDue, hk]; rfl
        | text =>
          have hother : (NodeKind.parenthesizedExpression == .interpolation) = false := rfl
          have hsame : (NodeKind.parenthesizedExpression != .parenthesizedExpression) = false := rfl
          rw [isDue, isDue, hk]
          simp only [hother, hsame, Bool.false_and, Bool.and_false]
        | visibility => rfl

/-! ## One replacement -/

section

variable {s r t t' : Skeleton} {path : List Nat}

/-- Where one that is alike is put, the whole stays alike, and nothing changes at the place and beside
it. -/
theorem Put.carry (h : Put s r path t t') :
    ∀ {σ : Situation}, Alike scope (situation scope start σ t path) s r →
      Alike scope σ t t' ∧ situation scope start σ t' path = situation scope start σ t path ∧
        ∀ q, ¬ path <+: q → situation scope start σ t' q = situation scope start σ t q ∧
          ∀ cause, DueAt scope start cause σ t' q ↔ DueAt scope start cause σ t q := by
  induction h with
  | here => exact fun h => ⟨h, rfl, fun q hq => absurd List.nil_prefix hq⟩
  | @child path c c' head left right hform _ ih =>
    intro σ h
    have hfound (d : Skeleton) : (left ++ d :: right)[left.length]? = some d := by simp
    rw [situation, hfound] at h
    obtain ⟨halike, hplace, hbeside⟩ := ih h
    obtain ⟨hnode, hdown, hdue⟩ := halike.node
    refine ⟨hnode, ?_, fun q hq => ?_⟩
    · simp only [situation, hfound, hdown]
      exact hplace
    cases q with
    | nil => exact ⟨rfl, fun cause => by rw [DueAt, DueAt, hdue]⟩
    | cons i q =>
      by_cases hi : i = left.length
      · subst hi
        have hq' : ¬ path <+: q := fun hprefix => hq (List.cons_prefix_cons.mpr ⟨rfl, hprefix⟩)
        obtain ⟨hsituation, hsame⟩ := hbeside q hq'
        refine ⟨?_, fun cause => ?_⟩
        · simp only [situation, hfound, hdown]
          exact hsituation
        · simp only [DueAt, hfound, hdown, Option.some.injEq, exists_eq_left']
          exact hsame cause
      · have hother := getElem?_beside left right c c' hi
        refine ⟨?_, fun cause => ?_⟩
        · rw [situation, situation, hother, hdown]
        · rw [DueAt, DueAt, hother, hdown]

theorem Put.at?_eq (h : Put s r path t t') : t.at? path = some s ∧ t'.at? path = some r := by
  induction h with
  | here => exact ⟨rfl, rfl⟩
  | child head left right _ _ ih =>
    have hfound (d : Skeleton) : (left ++ d :: right)[left.length]? = some d := by simp
    rw [at?, at?, hfound, hfound]
    exact ih

theorem at?_cons_eq_some {i : Nat} (h : t.at? (i :: path) = some s) :
    ∃ head cs d, t = .node head cs ∧ cs[i]? = some d ∧ d.at? path = some s := by
  cases t with
  | word k text => cases h
  | node head cs =>
    obtain ⟨d, hd, h⟩ := Option.bind_eq_some_iff.mp h
    exact ⟨head, cs, d, rfl, hd, h⟩

theorem at?_append (h : t.at? path = some s) (q : List Nat) : t.at? (path ++ q) = s.at? q := by
  induction path generalizing t with
  | nil =>
    obtain rfl := Option.some.inj h
    rfl
  | cons i path ih =>
    obtain ⟨head, cs, d, rfl, hd, h⟩ := at?_cons_eq_some h
    rw [List.cons_append, at?, hd]
    exact ih h

theorem situation_cons {cs : List Skeleton} {i : Nat} {d : Skeleton} (hd : cs[i]? = some d)
    (path : List Nat) : situation scope start σ (.node head cs) (i :: path) =
      situation scope start (down scope start σ head cs) d path := by
  rw [situation, hd]

theorem situation_append (h : t.at? path = some s) (q : List Nat) :
    situation scope start σ t (path ++ q) =
      situation scope start (situation scope start σ t path) s q := by
  induction path generalizing σ t with
  | nil =>
    obtain rfl := Option.some.inj h
    rfl
  | cons i path ih =>
    obtain ⟨head, cs, d, rfl, hd, h⟩ := at?_cons_eq_some h
    rw [List.cons_append, situation_cons hd, situation_cons hd]
    exact ih h

/-- What is due at a place and below is due in what stands there. -/
theorem dueAt_append (h : t.at? path = some s) (q : List Nat) (cause : Cause) :
    DueAt scope start cause σ t (path ++ q) ↔
      DueAt scope start cause (situation scope start σ t path) s q := by
  induction path generalizing σ t with
  | nil =>
    obtain rfl := Option.some.inj h
    rfl
  | cons i path ih =>
    obtain ⟨head, cs, d, rfl, hd, h⟩ := at?_cons_eq_some h
    rw [List.cons_append, situation, hd, DueAt, ← ih h]
    simp only [hd, Option.some.injEq, exists_eq_left']

end

/-! ## Below a node -/

section

variable {cause : Cause} {cs : List Skeleton} {t : Skeleton}

theorem has_node : Has scope start cause σ (.node head cs) ↔
    isDue scope σ head cs cause = true ∨
      ∃ d ∈ cs, Has scope start cause (down scope start σ head cs) d := by
  constructor
  · rintro ⟨path, h⟩
    cases path with
    | nil => exact .inl h
    | cons i path =>
      obtain ⟨d, hd, h⟩ := h
      exact .inr ⟨d, List.mem_of_getElem? hd, path, h⟩
  · rintro (h | ⟨d, hd, path, h⟩)
    · exact ⟨[], h⟩
    · obtain ⟨i, hi⟩ := List.mem_iff_getElem?.mp hd
      exact ⟨i :: path, d, hi, h⟩

theorem HasBelow.exists_path (h : HasBelow scope start cause σ t) :
    ∃ i path, DueAt scope start cause σ t (i :: path) := by
  cases t with
  | word k text => exact h.elim
  | node head cs =>
    obtain ⟨d, hd, path, h⟩ := h
    obtain ⟨i, hi⟩ := List.mem_iff_getElem?.mp hd
    exact ⟨i, path, d, hi, h⟩

theorem HasBelow.has (h : HasBelow scope start cause σ t) : Has scope start cause σ t := by
  obtain ⟨i, path, h⟩ := h.exists_path
  exact ⟨i :: path, h⟩

theorem isDue_of_not_isSpot (h : head.kind.isSpot = false) (huse : σ.use ≠ .operand) :
    isDue scope σ head cs cause = false := by
  have hkinds : head.kind ≠ .invocationExpression ∧ head.kind ≠ .interpolation ∧
      head.kind.isTypeDeclaration = false := by
    revert h
    cases head.kind
    all_goals decide
  cases cause with
  | call => rw [isDue, beq_eq_false_iff_ne.mpr hkinds.1, Bool.false_and]
  | text =>
    rw [isDue, beq_eq_false_iff_ne.mpr hkinds.2.1, beq_eq_false_iff_ne.mpr huse]
    rfl
  | visibility => rw [isDue, hkinds.2.2, Bool.and_false, Bool.false_and]

/-- Nothing is due in what has no spots, unless it is an operand. -/
theorem not_has_of_spotless (h : t.spotless = true) (huse : σ.use ≠ .operand) :
    ¬ Has scope start cause σ t := by
  rintro ⟨path, hdue⟩
  induction path generalizing σ t with
  | nil =>
    cases t with
    | word k text => exact hdue
    | node head cs =>
      rw [spotless, Bool.and_eq_true, Bool.not_eq_true'] at h
      rw [DueAt, isDue_of_not_isSpot h.1 huse] at hdue
      cases hdue
  | cons i path ih =>
    cases t with
    | word k text => exact hdue
    | node head cs =>
      obtain ⟨d, hd, hdue⟩ := hdue
      rw [spotless, Bool.and_eq_true, Bool.not_eq_true', spotlessOf_eq_all] at h
      refine ih (List.all_eq_true.mp h.2 d (List.mem_of_getElem? hd)) (fun hdown => ?_) hdue
      rcases down_operand_iff.mp hdown with ⟨hk, -⟩ | ⟨hk, -⟩
      · rw [hk] at h
        cases h.1
      · rw [hk] at h
        cases h.1

/-- A node is due in every place where it is due in a plain one. -/
theorem isDue_mono {τ : Situation} (h : isDue scope τ head cs cause = true)
    (hnames : τ.names = σ.names) (huse : τ.use = .plain) (hspace : τ.inSupport = false) :
    isDue scope σ head cs cause = true := by
  cases cause with
  | call =>
    rw [isDue, namesIn, hnames] at h
    exact h
  | text =>
    rw [isDue, huse] at h
    simp at h
  | visibility =>
    rw [isDue, hspace] at h
    cases h

/-- Only parentheses hand on what is done with their value. -/
theorem down_eq {τ : Situation} (hnames : τ.names = σ.names)
    (hk : head.kind ≠ .parenthesizedExpression) :
    down scope start τ head cs = down scope start σ head cs := by
  rw [down, down, namesIn, namesIn, typeIn, typeIn, hnames]
  split
  · rfl
  · contradiction
  · rfl
  · rfl

/-- What is due in a plain place is due in every place with the same names around it. -/
theorem Has.mono {τ : Situation} (h : Has scope start cause τ t) (hnames : τ.names = σ.names)
    (huse : τ.use = .plain) (hspace : τ.inSupport = false) : Has scope start cause σ t := by
  obtain ⟨path, h⟩ := h
  refine ⟨path, ?_⟩
  induction path generalizing σ τ t with
  | nil =>
    cases t with
    | word k text => exact h
    | node head cs => exact isDue_mono h hnames huse hspace
  | cons i path ih =>
    cases t with
    | word k text => exact h
    | node head cs =>
      obtain ⟨d, hd, h⟩ := h
      refine ⟨d, hd, ?_⟩
      by_cases hk : head.kind = .parenthesizedExpression
      · refine ih ?_ ?_ ?_ h
        · show namesIn τ head cs = namesIn σ head cs
          rw [namesIn, namesIn, hnames]
        · rw [down, hk, huse]
          rfl
        · rw [down, hk]
          rfl
      · rw [← down_eq hnames hk]
        exact h

end

end Skeleton

end SharpLint
