import SharpLint.Proofs.Grammar.RankUnit
import SharpLint.Proofs.Repair.Comments

/-!
# Modifiers of a type made internal

The children of a type declaration are attributes, modifiers, a word and the rest
(`DeclarationParts`). Made internal, the declaration has other modifiers; a word without modifiers in
front of it gives its leading trivia to `internal`.

    internalChildren? p.children = some p.internal.children          (internalChildren?_children)
    p.internal.internal = p.internal                                          (internal_internal)
    (p.tree k).fullChars = p.before ++ p.between ++ p.behind                     (fullChars_tree)

What is before and behind the modifiers stays, and all declarations of a parsed text have such parts
(`withInternal_parse`).
-/

namespace SharpLint.Repair.Visibility

open SharpLint.Tree

/-! ## Lists of modifiers -/

/-- The token without the trivia before it. -/
def behindLeading (t : Token) : Token := { t with leading := [] }

/-- The word `internal` that comes first. -/
def internalToken (leading : List Trivia) (modifiers : List Token) : Token :=
  { Token.ofKind (.keyword .kwInternal) with
    leading := leading
    trailing := ((modifiers.find? isAccessibility).map Token.trailing).getD [.space] }

/-- The modifiers behind `internal`. -/
def keptModifiers (modifiers : List Token) : List Token :=
  (modifiers.modifyHead behindLeading).filter (!isAccessibility ·)

theorem internalFirst_eq (leading : List Trivia) (modifiers : List Token) :
    internalFirst leading modifiers = internalToken leading modifiers :: keptModifiers modifiers := by
  cases modifiers with
  | nil => rfl
  | cons first others => rfl

theorem isAccessibility_internalToken (leading : List Trivia) (modifiers : List Token) :
    isAccessibility (internalToken leading modifiers) = true := rfl

/-- Behind `internal` stand the modifiers that are not for accessibility, with the trivia behind
them. -/
theorem map_keptModifiers (modifiers : List Token) :
    (keptModifiers modifiers).map behindLeading =
      (modifiers.filter (!isAccessibility ·)).map behindLeading := by
  cases modifiers with
  | nil => rfl
  | cons first others =>
    have hsame : isAccessibility (behindLeading first) = isAccessibility first := rfl
    rw [keptModifiers, List.modifyHead_cons, List.filter_cons, List.filter_cons, hsame]
    split
    · rfl
    · rfl

/-- Modifiers that start with `internal` and have no other for accessibility stay as they are. -/
theorem internalFirst_internalFirst (leading : List Trivia) (modifiers : List Token) :
    internalFirst leading (internalFirst leading modifiers) = internalFirst leading modifiers := by
  have haccess := isAccessibility_internalToken leading modifiers
  have hkept : (keptModifiers modifiers).filter (!isAccessibility ·) = keptModifiers modifiers := by
    rw [keptModifiers, List.filter_filter]
    simp only [Bool.and_self]
  have hdropped : (!isAccessibility (behindLeading (internalToken leading modifiers))) = false := rfl
  rw [internalFirst_eq leading modifiers, internalFirst_eq, internalToken,
    List.find?_cons_of_pos haccess, keptModifiers, List.modifyHead_cons, List.filter_cons, hdropped,
    hkept]
  rfl

/-- When the first modifier alone is for accessibility, `internal` has its trivia, and the others
follow. -/
theorem internalFirst_of_first {first : Token} {others : List Token}
    (hfirst : isAccessibility first = true) (hothers : ∀ m ∈ others, isAccessibility m = false) :
    internalFirst first.leading (first :: others) =
      { Token.ofKind (.keyword .kwInternal) with
        leading := first.leading, trailing := first.trailing } :: others := by
  have hdropped : (!isAccessibility (behindLeading first)) = false := by
    rw [← Bool.not_true, ← hfirst]
    rfl
  have hkept : others.filter (!isAccessibility ·) = others :=
    List.filter_eq_self.mpr fun m hm => by rw [hothers m hm]; rfl
  rw [internalFirst_eq, internalToken, List.find?_cons_of_pos hfirst, keptModifiers,
    List.modifyHead_cons, List.filter_cons, hdropped, hkept]
  rfl

/-! ## Parts of a declaration -/

theorem tokensOf_map_token (ts : List Token) : tokensOf (ts.map .token) = ts := by
  induction ts with
  | nil => rfl
  | cons t ts ih =>
    rw [List.map_cons, tokensOf, ih]
    rfl

/-- The children of a type declaration, from the modifiers on one by one. -/
structure DeclarationParts where
  attributes : List Tree
  modifiers : List Token
  /-- The keyword; in a record the word `record`. -/
  word : Token
  rest : List Tree
  label_attributes : ∀ c ∈ attributes, c.label = .node .attributeList

namespace DeclarationParts

variable (p : DeclarationParts)

/-- The children. -/
def children : List Tree := p.attributes ++ Build.modifierList p.modifiers :: .token p.word :: p.rest

/-- The declaration, of the kind `k`. -/
def tree (k : NodeKind) : Tree := .node k p.children

/-- The first modifier, or the word when there is none. -/
def first : Token := p.modifiers.headD p.word

/-- Text before the first modifier, or before the word when there is none. -/
def before : List Char :=
  (tokensOf p.attributes).flatMap Token.fullChars ++ Trivia.chars p.first.leading

/-- Text from the first modifier up to the word. -/
def between : List Char :=
  match p.modifiers with
  | [] => []
  | first :: others =>
    first.text.toList ++ Trivia.chars first.trailing ++ others.flatMap Token.fullChars ++
      Trivia.chars p.word.leading

/-- Text from the word on. -/
def behind : List Char :=
  p.word.text.toList ++ Trivia.chars p.word.trailing ++ (tokensOf p.rest).flatMap Token.fullChars

/-- The parts with the modifiers changed. -/
def internal : DeclarationParts where
  attributes := p.attributes
  modifiers := internalFirst p.first.leading p.modifiers
  word := if p.modifiers.isEmpty then behindLeading p.word else p.word
  rest := p.rest
  label_attributes := p.label_attributes

theorem fullChars_tree (k : NodeKind) :
    (p.tree k).fullChars = p.before ++ p.between ++ p.behind := by
  obtain ⟨attributes, modifiers, word, rest, hattributes⟩ := p
  cases modifiers with
  | nil => simp [fullChars, tree, children, before, between, behind, first, tokens, tokensOf,
      Build.modifierList, Token.fullChars]
  | cons m ms => simp [fullChars, tree, children, before, between, behind, first, tokens, tokensOf,
      Build.modifierList, Token.fullChars, tokensOf_map_token]

theorem internalChildren?_children : internalChildren? p.children = some p.internal.children := by
  obtain ⟨attributes, modifiers, word, rest, hattributes⟩ := p
  simp only [children, internal]
  induction attributes with
  | nil =>
    have hamong : tokensAmong (modifiers.map .token) = modifiers := tokensAmong_map_token modifiers
    cases modifiers with
    | nil => rfl
    | cons first others =>
      simp only [List.nil_append, Build.modifierList, internalChildren?, hamong]
      rfl
  | cons c cs ih =>
    -- attributes stay where they are
    rw [List.forall_mem_cons] at hattributes
    obtain ⟨ds, rfl⟩ := exists_of_label_node hattributes.1
    simp only [List.cons_append, internalChildren?]
    rw [ih hattributes.2]
    rfl

theorem internal_internal : p.internal.internal = p.internal := by
  have hmodifiers : internalFirst p.internal.first.leading p.internal.modifiers =
      p.internal.modifiers := internalFirst_internalFirst p.first.leading p.modifiers
  rw [internal, hmodifiers]
  rfl

theorem before_internal : p.internal.before = p.before := rfl

theorem behind_internal : p.internal.behind = p.behind := by
  unfold internal behind
  split
  · rfl
  · rfl

/-- When the first modifier alone is for accessibility, `internal` comes in place of its text. -/
theorem between_internal {first : Token} {others : List Token}
    (hmodifiers : p.modifiers = first :: others) (hfirst : isAccessibility first = true)
    (hothers : ∀ m ∈ others, isAccessibility m = false) :
    ∃ tail, p.between = first.text.toList ++ tail ∧
      p.internal.between = "internal".toList ++ tail := by
  obtain ⟨attributes, _, word, rest, hattributes⟩ := p
  obtain rfl := hmodifiers
  refine ⟨Trivia.chars first.trailing ++ others.flatMap Token.fullChars ++
    Trivia.chars word.leading, ?_, ?_⟩
  · simp only [between, List.append_assoc]
  · have hlist := internalFirst_of_first hfirst hothers
    simp only [between, internal, DeclarationParts.first, List.headD_cons, hlist, List.append_assoc]
    rfl

end DeclarationParts

/-! ## Declarations of a text -/

/-- The declaration with the parts `p` became the one with the parts `q`. -/
structure MadeInternal (p q : DeclarationParts) : Prop where
  /-- `internal`, and the modifiers that are not for accessibility, in their order. -/
  modifiers : ∃ internal kept, q.modifiers = internal :: kept ∧
    internal.kind = .keyword .kwInternal ∧ internal.text = "internal" ∧
    kept.map behindLeading = (p.modifiers.filter (!isAccessibility ·)).map behindLeading
  /-- Before the first modifier, and from the word on, the text is the same. -/
  around : ∀ k, (p.tree k).fullChars = p.before ++ p.between ++ p.behind ∧
    (q.tree k).fullChars = p.before ++ q.between ++ p.behind
  /-- A single word for accessibility that comes first is replaced where it stands. -/
  replaced : ∀ first others, p.modifiers = first :: others → isAccessibility first = true →
    (∀ m ∈ others, isAccessibility m = false) → ∃ tail, ∀ k,
      (p.tree k).fullChars = p.before ++ first.text.toList ++ tail ∧
        (q.tree k).fullChars = p.before ++ "internal".toList ++ tail

theorem DeclarationParts.madeInternal (p : DeclarationParts) : MadeInternal p p.internal where
  modifiers := ⟨_, _, internalFirst_eq _ _, rfl, rfl, map_keptModifiers _⟩
  around k := by
    refine ⟨p.fullChars_tree k, ?_⟩
    rw [p.internal.fullChars_tree, p.before_internal, p.behind_internal]
  replaced first others hmodifiers hfirst hothers := by
    obtain ⟨tail, hold, hnew⟩ := p.between_internal hmodifiers hfirst hothers
    refine ⟨tail ++ p.behind, fun k => ⟨?_, ?_⟩⟩
    · rw [p.fullChars_tree, hold]
      simp only [List.append_assoc]
    · rw [p.internal.fullChars_tree, p.before_internal, p.behind_internal, hnew]
      simp only [List.append_assoc]

/-- A type declaration has parts. -/
theorem exists_parts {n : Node} (hn : n.tree.Shaped) (hkind : n.kind.isTypeDeclaration = true) :
    ∃ p : DeclarationParts, n.children = p.children := by
  obtain ⟨attributes, list, word, between, name, rest, hchildren, hattributes, -⟩ :=
    Node.exists_typeName_split hn hkind
  have hlist : (Tree.node .modifierList list).Shaped :=
    shapedOf_iff.mp hn.2 _ (by rw [hchildren]; simp)
  obtain ⟨modifiers, rfl⟩ := IsTokens.exists_tokens hlist.1.form
  refine ⟨⟨attributes, modifiers, word, between ++ .token name :: rest, hattributes⟩, ?_⟩
  rw [hchildren, DeclarationParts.children, Build.modifierList]
  simp only [List.append_assoc, List.cons_append]

/-- Every type declaration of a text can be made internal. That changes the modifiers alone, and a
second time changes nothing. -/
theorem withInternal_parse {text : String} {t : Tree} (h : parse text = .ok t) :
    ∀ n ∈ (Node.root t).descendants, n.kind.isTypeDeclaration = true →
      ∃ p q : DeclarationParts, n.tree = p.tree n.kind ∧
        withInternal? n = some (q.tree n.kind) ∧ MadeInternal p q ∧
        withInternal? (.root (q.tree n.kind)) = some (q.tree n.kind) := by
  intro n hmem hkind
  have hn := Node.Inside.of_mem_descendants hmem
  obtain ⟨p, hp⟩ := exists_parts (hn.shaped (sound_parse h).shaped) hkind
  refine ⟨p, p.internal, ?_, ?_, p.madeInternal, ?_⟩
  · rw [Node.tree, hp]
    rfl
  · rw [withInternal?, hp, p.internalChildren?_children]
    rfl
  · have hagain := p.internal.internalChildren?_children
    rw [p.internal_internal] at hagain
    show (internalChildren? p.internal.children).map _ = _
    rw [hagain]
    rfl

/-- A modifier in front of `public`, no modifiers, and `public` alone in front. -/
def modifierSource : String :=
  "[A] // first\nstatic public /* last */ class B \x7b \x7d\n// second\nenum C \x7b D \x7d " ++
    "public /* third */ sealed record E;"

theorem withInternal_parse_modifierSource :
    ∃ t, parse modifierSource = .ok t ∧
      ((Node.root t).descendants.filter (·.kind.isTypeDeclaration)).map
          (fun n => (withInternal? n).map fullText) =
        [some "[A] // first\ninternal /* last */ static class B \x7b \x7d\n",
          some "// second\ninternal enum C \x7b D \x7d ",
          some "internal /* third */ sealed record E;"] ∧
      ∀ n ∈ (Node.root t).descendants, n.kind.isTypeDeclaration = true →
        ∃ p q : DeclarationParts, n.tree = p.tree n.kind ∧
          withInternal? n = some (q.tree n.kind) ∧ MadeInternal p q ∧
          withInternal? (.root (q.tree n.kind)) = some (q.tree n.kind) := by
  have hrun : (parse modifierSource).toOption.any (fun t =>
      ((Node.root t).descendants.filter (·.kind.isTypeDeclaration)).map
          (fun n => (withInternal? n).map fullText) ==
        [some "[A] // first\ninternal /* last */ static class B \x7b \x7d\n",
          some "// second\ninternal enum C \x7b D \x7d ",
          some "internal /* third */ sealed record E;"]) = true := by
    decide +kernel
  cases ht : parse modifierSource with
  | error e =>
    rw [ht] at hrun
    cases hrun
  | ok t =>
    rw [ht] at hrun
    exact ⟨t, rfl, beq_iff_eq.mp hrun, withInternal_parse ht⟩

end SharpLint.Repair.Visibility
