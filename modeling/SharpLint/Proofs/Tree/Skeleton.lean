import SharpLint.Proofs.Change.Sound
import SharpLint.Proofs.Rule.SupportNamespace
import SharpLint.Proofs.Tree.Printed

/-!
# Skeletons

What is known about an expression depends on the words of its tree and on the texts of its types, and
on no trivia around them. The skeleton of a tree keeps just this: the words, and in front of the
children of a node its kind, its text if it has the form of a type, and whether it is public. Lists of
modifiers are left out. So two trees have one skeleton when they differ in outer trivia
(`skeleton_withTriviaFrom`).

`Skeleton.Put s r path t t'` says that `t` has `s` at a path and `t'` is `t` with `r` there. A node that
is replaced in a tree makes such a change of skeletons when it stands in no type (`Replaced.put`).
-/

namespace SharpLint

open SharpLint.Tree Node

/-- What a node is, without its children. -/
structure Head where
  kind : NodeKind
  /-- The text of a node in the form of a type. -/
  name : String
  isPublic : Bool
  deriving DecidableEq

/-- A tree without trivia. -/
inductive Skeleton where
  | word (kind : TokenKind) (text : String)
  | node (head : Head) (children : List Skeleton)

namespace Tree

/-- The word `public` is among the modifiers. -/
def publicAmong (cs : List Tree) : Bool :=
  (cs.find? fun c => c.label.nodeKind?.any (· == .modifierList)).any (holdsToken (.keyword .kwPublic))

def head (k : NodeKind) (cs : List Tree) : Head :=
  ⟨k, if k.isTypeForm then (node k cs).text else "", publicAmong cs⟩

theorem name_head_of_not_isTypeForm {k : NodeKind} (h : k.isTypeForm = false) (cs : List Tree) :
    (head k cs).name = "" := by
  rw [head, h]
  rfl

mutual

def skeleton : Tree → Skeleton
  | .token t => .word t.kind t.text
  | .node k cs => .node (head k cs) (if k = .modifierList then [] else skeletons cs)

def skeletons : List Tree → List Skeleton
  | [] => []
  | c :: cs => skeleton c :: skeletons cs

end

theorem skeletons_eq_map (cs : List Tree) : skeletons cs = cs.map skeleton := by
  induction cs with
  | nil => rfl
  | cons c cs ih => rw [skeletons, ih, List.map_cons]

theorem skeleton_node {k : NodeKind} (hk : k ≠ .modifierList) (cs : List Tree) :
    (node k cs).skeleton = .node (head k cs) (cs.map skeleton) := by
  rw [skeleton, if_neg hk, skeletons_eq_map]

theorem publicAmong_children (n : Node) : publicAmong n.children = n.hasModifier .kwPublic :=
  (hasModifier_eq n .kwPublic).symm

/-! ## Other outer trivia -/

theorem holdsToken_mapFirst {f : Token → Token} (hf : KeepsWord f) (k : TokenKind) (t : Tree) :
    (t.mapFirst f).holdsToken k = t.holdsToken k := by
  cases t with
  | token t => rfl
  | node l cs =>
    show (mapFirstOf f cs).any (·.label == .token k) = cs.any (·.label == .token k)
    have hany (ds : List Tree) : ds.any (·.label == .token k) =
        (ds.map label).any (· == .token k) := by
      rw [List.any_map]
      rfl
    rw [hany, hany, labels_mapFirstOf hf]

theorem holdsToken_mapLast {f : Token → Token} (hf : KeepsWord f) (k : TokenKind) (t : Tree) :
    (t.mapLast f).holdsToken k = t.holdsToken k := by
  cases t with
  | token t => rfl
  | node l cs =>
    show (mapLastOf f cs).any (·.label == .token k) = cs.any (·.label == .token k)
    have hany (ds : List Tree) : ds.any (·.label == .token k) =
        (ds.map label).any (· == .token k) := by
      rw [List.any_map]
      rfl
    rw [hany, hany, labels_mapLastOf hf]

theorem publicAmong_cons {c c' : Tree} {cs cs' : List Tree} (hlabel : c'.label = c.label)
    (hholds : c'.holdsToken (.keyword .kwPublic) = c.holdsToken (.keyword .kwPublic))
    (hrest : publicAmong cs' = publicAmong cs) : publicAmong (c' :: cs') = publicAmong (c :: cs) := by
  unfold publicAmong at hrest ⊢
  rw [List.find?_cons, List.find?_cons, hlabel]
  cases c.label.nodeKind?.any (· == .modifierList) with
  | true => exact hholds
  | false => exact hrest

theorem publicAmong_mapFirstOf {f : Token → Token} (hf : KeepsWord f) (cs : List Tree) :
    publicAmong (mapFirstOf f cs) = publicAmong cs := by
  induction cs with
  | nil => rfl
  | cons c cs ih =>
    rw [mapFirstOf]
    split
    · exact publicAmong_cons (label_mapFirst hf c) (holdsToken_mapFirst hf _ c) rfl
    · exact publicAmong_cons rfl rfl ih

theorem publicAmong_mapLastOf {f : Token → Token} (hf : KeepsWord f) (cs : List Tree) :
    publicAmong (mapLastOf f cs) = publicAmong cs := by
  induction cs with
  | nil => rfl
  | cons c cs ih =>
    rw [mapLastOf]
    split
    · exact publicAmong_cons rfl rfl ih
    · exact publicAmong_cons (label_mapLast hf c) (holdsToken_mapLast hf _ c) rfl

theorem text_of_tokens_nil {t : Tree} (h : t.tokens = []) : t.text = "" := by
  have hchars : t.fullChars = [] := by
    rw [fullChars, h]
    rfl
  rw [fullChars_eq_text] at hchars
  exact String.toList_inj.mp (List.append_eq_nil_iff.mp (List.append_eq_nil_iff.mp hchars).1).2

/-- Other leading trivia leave the text as it is, even without a token. -/
theorem text_mapFirst (ts : List Trivia) (t : Tree) :
    (t.mapFirst fun u => { u with leading := ts }).text = t.text := by
  by_cases htokens : t.tokens = []
  · have hnone : (t.mapFirst fun u => { u with leading := ts }).tokens = [] := by
      rw [tokens_mapFirst, htokens]
      rfl
    rw [text_of_tokens_nil htokens, text_of_tokens_nil hnone]
  · exact text_withLeading htokens ts

theorem tokens_withTrailing (t : Tree) (trailing : List Trivia) :
    (t.withTrailing trailing).tokens = withOuter t.leading trailing t.tokens := by
  have hhead : (t.tokens.modifyHead fun u => { u with leading := t.leading }) = t.tokens := by
    rw [leading_eq]
    cases t.tokens with
    | nil => rfl
    | cons u us => rfl
  rw [withTrailing, tokens_mapLast, withOuter, hhead]

/-- Other trailing trivia leave the text as it is, even without a token. -/
theorem text_mapLast (ts : List Trivia) (t : Tree) :
    (t.mapLast fun u => { u with trailing := ts }).text = t.text := by
  by_cases htokens : t.tokens = []
  · have hnone : (t.mapLast fun u => { u with trailing := ts }).tokens = [] := by
      rw [tokens_mapLast, htokens]
      rfl
    rw [text_of_tokens_nil htokens, text_of_tokens_nil hnone]
  · exact text_of_tokens htokens (tokens_withTrailing t ts)

theorem head_congr {k : NodeKind} {cs ds : List Tree} (htext : (node k cs).text = (node k ds).text)
    (hpublic : publicAmong cs = publicAmong ds) : head k cs = head k ds := by
  rw [head, head, htext, hpublic]

section

variable (ts : List Trivia)

mutual

theorem skeleton_mapFirst : (t : Tree) →
    (t.mapFirst fun u => { u with leading := ts }).skeleton = t.skeleton
  | .token _ => rfl
  | .node k cs => by
    rw [mapFirst, skeleton, skeleton, skeletons_mapFirstOf cs,
      head_congr (text_mapFirst ts (.node k cs)) (publicAmong_mapFirstOf (keepsWord_leading ts) cs)]

theorem skeletons_mapFirstOf : (cs : List Tree) →
    skeletons (mapFirstOf (fun u => { u with leading := ts }) cs) = skeletons cs
  | [] => rfl
  | c :: cs => by
    rw [mapFirstOf]
    split
    · rw [skeletons, skeletons, skeleton_mapFirst c]
    · rw [skeletons, skeletons, skeletons_mapFirstOf cs]

end

mutual

theorem skeleton_mapLast : (t : Tree) →
    (t.mapLast fun u => { u with trailing := ts }).skeleton = t.skeleton
  | .token _ => rfl
  | .node k cs => by
    rw [mapLast, skeleton, skeleton, skeletons_mapLastOf cs,
      head_congr (text_mapLast ts (.node k cs)) (publicAmong_mapLastOf (keepsWord_trailing ts) cs)]

theorem skeletons_mapLastOf : (cs : List Tree) →
    skeletons (mapLastOf (fun u => { u with trailing := ts }) cs) = skeletons cs
  | [] => rfl
  | c :: cs => by
    rw [mapLastOf]
    split
    · rw [skeletons, skeletons, skeletons_mapLastOf cs]
    · rw [skeletons, skeletons, skeleton_mapLast c]

end

end

/-- Outer trivia are not in the skeleton. -/
theorem skeleton_withTrivia (t : Tree) (leading trailing : List Trivia) :
    ((t.withLeading leading).withTrailing trailing).skeleton = t.skeleton :=
  (skeleton_mapLast trailing _).trans (skeleton_mapFirst leading t)

theorem skeleton_withTriviaFrom (t other : Tree) :
    (t.withTriviaFrom other).skeleton = t.skeleton :=
  skeleton_withTrivia t _ _

end Tree

/-! ## Types with nothing but names -/

/-- The kinds of nodes that a fix replaces, or whose operands it replaces. -/
def NodeKind.isSpot : NodeKind → Bool
  | .invocationExpression | .addExpression | .parenthesizedExpression | .interpolation => true
  | k => k.isTypeDeclaration

theorem NodeKind.isSpot_of_takesExpression {k : NodeKind} (h : k.takesExpression = true) :
    k.isSpot = true := by
  cases k
  all_goals first | rfl | cases h

theorem NodeKind.isTypeForm_of_takesExpression {k : NodeKind} (h : k.takesExpression = true) :
    k.isTypeForm = false := by
  cases k
  all_goals first | rfl | cases h

namespace Skeleton

mutual

/-- No node is a spot. -/
def spotless : Skeleton → Bool
  | .word _ _ => true
  | .node head cs => !head.kind.isSpot && spotlessOf cs

def spotlessOf : List Skeleton → Bool
  | [] => true
  | c :: cs => spotless c && spotlessOf cs

end

mutual

/-- No type has a spot in it, such as a call in the size of an array. -/
def plainTypes : Skeleton → Bool
  | .word _ _ => true
  | .node head cs => (!head.kind.isTypeForm || spotlessOf cs) && plainTypesOf cs

def plainTypesOf : List Skeleton → Bool
  | [] => true
  | c :: cs => plainTypes c && plainTypesOf cs

end

theorem spotlessOf_eq_all (cs : List Skeleton) : spotlessOf cs = cs.all spotless := by
  induction cs with
  | nil => rfl
  | cons c cs ih => rw [spotlessOf, ih, List.all_cons]

theorem plainTypesOf_eq_all (cs : List Skeleton) : plainTypesOf cs = cs.all plainTypes := by
  induction cs with
  | nil => rfl
  | cons c cs ih => rw [plainTypesOf, ih, List.all_cons]

mutual

theorem plainTypes_of_spotless : (t : Skeleton) → t.spotless = true → t.plainTypes = true
  | .word _ _, _ => rfl
  | .node head cs, h => by
    obtain ⟨-, hcs⟩ := Bool.and_eq_true_iff.mp h
    show ((!head.kind.isTypeForm || spotlessOf cs) && plainTypesOf cs) = true
    rw [hcs, Bool.or_true, plainTypesOf_of_spotlessOf cs hcs]
    rfl

theorem plainTypesOf_of_spotlessOf : (cs : List Skeleton) → spotlessOf cs = true →
    plainTypesOf cs = true
  | [], _ => rfl
  | c :: cs, h => by
    obtain ⟨hc, hcs⟩ := Bool.and_eq_true_iff.mp h
    show (plainTypes c && plainTypesOf cs) = true
    rw [plainTypes_of_spotless c hc, plainTypesOf_of_spotlessOf cs hcs]
    rfl

end

theorem plainTypes_node {head : Head} (h : head.kind.isTypeForm = false) (cs : List Skeleton) :
    (node head cs).plainTypes = true ↔ ∀ c ∈ cs, c.plainTypes = true := by
  rw [plainTypes, h, plainTypesOf_eq_all]
  exact List.all_eq_true

/-! ## One replacement -/

/-- The second skeleton is the first one with `r` for `s` at a path, and there is no type around. -/
inductive Put (s r : Skeleton) : List Nat → Skeleton → Skeleton → Prop
  | here : Put s r [] s r
  | child {path : List Nat} {c c' : Skeleton} (head : Head) (left right : List Skeleton) :
      head.kind.isTypeForm = false → Put s r path c c' →
      Put s r (left.length :: path) (.node head (left ++ c :: right)) (.node head (left ++ c' :: right))

theorem Put.plainTypes {s r t t' : Skeleton} {path : List Nat} (h : Put s r path t t')
    (hr : r.plainTypes = true) (ht : t.plainTypes = true) : t'.plainTypes = true := by
  induction h with
  | here => exact hr
  | child head left right hhead _ ih =>
    rw [Skeleton.plainTypes, hhead, plainTypesOf_eq_all, List.all_append, List.all_cons] at ht ⊢
    simp only [Bool.not_false, Bool.true_or, Bool.true_and, Bool.and_eq_true] at ht ⊢
    exact ⟨ht.1, ih ht.2.1, ht.2.2⟩

end Skeleton

namespace Replaced

variable {r t t' : Tree} {above : List Frame} {offset : Nat} {n : Node}

/-- There are no nodes in lists of modifiers. -/
theorem kind_ne_modifierList (h : Replaced r above offset t n t') {k : NodeKind}
    {left right : List Tree} (hk : (Tree.node k (left ++ t :: right)).Shaped) :
    k ≠ .modifierList := by
  rintro rfl
  obtain ⟨ts, hts⟩ := IsTokens.exists_tokens hk.1.form
  have hmem : t ∈ ts.map Tree.token := hts ▸ List.mem_append_right left List.mem_cons_self
  obtain ⟨u, -, rfl⟩ := List.mem_map.mp hmem
  cases h

theorem shaped_child {k : NodeKind} {left right : List Tree}
    (hk : (Tree.node k (left ++ t :: right)).Shaped) : t.Shaped :=
  (shapedOf_append.mp hk.2).2.1

theorem spotless_child {k : NodeKind} {left right : List Tree} (hk : k ≠ .modifierList)
    (h : (Tree.node k (left ++ t :: right)).skeleton.spotless = true) :
    k.isSpot = false ∧ t.skeleton.spotless = true := by
  rw [skeleton_node hk, Skeleton.spotless, Skeleton.spotlessOf_eq_all, List.map_append, List.map_cons,
    List.all_append, List.all_cons] at h
  rw [Bool.and_eq_true, Bool.and_eq_true, Bool.and_eq_true, Bool.not_eq_true'] at h
  exact ⟨h.1, h.2.2.1⟩

/-- In a tree without spots neither the node nor the one around it is a spot. -/
theorem not_isSpot (h : Replaced r above offset t n t') (ht : t.Shaped)
    (hspotless : t.skeleton.spotless = true) :
    n.kind.isSpot = false ∧
      (n.above = above ∨ ∃ p, (n.above.map Frame.kind).head? = some p ∧ p.isSpot = false) := by
  induction h with
  | here k cs =>
    refine ⟨?_, .inl rfl⟩
    rw [skeleton, Skeleton.spotless, Bool.and_eq_true, Bool.not_eq_true'] at hspotless
    exact hspotless.1
  | @child above offset k left c c' right n h ih =>
    have hspot := spotless_child (h.kind_ne_modifierList ht) hspotless
    obtain ⟨hn, habove⟩ := ih (shaped_child ht) hspot.2
    refine ⟨hn, .inr ?_⟩
    rcases habove with habove | hparent
    · exact ⟨k, by rw [habove]; rfl, hspot.1⟩
    · exact hparent

/-- The node can be replaced by a fix: it is a spot, or it stands where any expression may. -/
def IsSite (n : Node) : Prop :=
  n.kind.isSpot = true ∨ ∃ p, (n.above.map Frame.kind).head? = some p ∧ p.takesExpression = true

theorem label_ne_of_child (h : Replaced r above offset t n t') (ht : t.Shaped)
    (hn : n.kind ≠ .modifierList) (hr : r.label ≠ .node .modifierList) :
    t.label ≠ .node .modifierList ∧ t'.label ≠ .node .modifierList := by
  cases h with
  | here k cs => exact ⟨fun hlabel => hn (Label.node.inj hlabel), hr⟩
  | child left right h =>
    have hk := h.kind_ne_modifierList ht
    exact ⟨fun hlabel => hk (Label.node.inj hlabel), fun hlabel => hk (Label.node.inj hlabel)⟩

theorem publicAmong_congr {left right : List Tree} (ht : t.label ≠ .node .modifierList)
    (ht' : t'.label ≠ .node .modifierList) :
    publicAmong (left ++ t' :: right) = publicAmong (left ++ t :: right) := by
  have hnone {u : Tree} (hu : u.label ≠ .node .modifierList) :
      (u.label.nodeKind?.any (· == .modifierList)) = false := by
    cases hlabel : u.label with
    | token k => rfl
    | node k =>
      rw [hlabel] at hu
      exact beq_eq_false_iff_ne.mpr fun hk => hu (hk ▸ rfl)
  rw [publicAmong, publicAmong,
    Rule.SupportNamespace.find?_append_congr (hnone ht) (hnone ht')]

/-- A node that a fix replaces is replaced in the skeleton. -/
theorem put (h : Replaced r above offset t n t') (ht : t.Shaped)
    (hplain : t.skeleton.plainTypes = true) (hn : n.kind ≠ .modifierList)
    (hr : r.label ≠ .node .modifierList) (hsite : IsSite n) :
    ∃ frames, n.above = frames ++ above ∧
      Skeleton.Put n.tree.skeleton r.skeleton (frames.map Frame.index).reverse t.skeleton
        t'.skeleton := by
  induction h with
  | here k cs => exact ⟨[], rfl, .here⟩
  | @child above offset k left c c' right n h ih =>
    have hk := h.kind_ne_modifierList ht
    have hlabels := h.label_ne_of_child (shaped_child ht) hn hr
    rw [skeleton_node hk, Skeleton.plainTypes, Skeleton.plainTypesOf_eq_all,
      Skeleton.spotlessOf_eq_all, List.map_append, List.map_cons] at hplain
    simp only [List.all_append, List.all_cons, Bool.and_eq_true, Bool.or_eq_true] at hplain
    -- a type around the node would have a spot in it
    have hform : k.isTypeForm = false := by
      refine (Bool.eq_false_or_eq_true _).resolve_left fun hform => ?_
      have hspotless := hplain.1.resolve_left (by simp [head, hform])
      obtain ⟨hspot, hparent⟩ := h.not_isSpot (shaped_child ht) hspotless.2.1
      rcases hsite with hsite | ⟨p, hp, htakes⟩
      · rw [hspot] at hsite
        cases hsite
      · rcases hparent with habove | ⟨p', hp', hspot'⟩
        · rw [habove] at hp
          obtain rfl := Option.some.inj hp
          rw [NodeKind.isTypeForm_of_takesExpression htakes] at hform
          cases hform
        · obtain rfl := Option.some.inj (hp.symm.trans hp')
          rw [NodeKind.isSpot_of_takesExpression htakes] at hspot'
          cases hspot'
    obtain ⟨frames, habove, hput⟩ := ih (shaped_child ht) hplain.2.2.1 hn hsite
    refine ⟨frames ++ [⟨k, left ++ c :: right, offset, left.length⟩], ?_, ?_⟩
    · rw [habove, List.append_assoc]
      rfl
    · have hhead : head k (left ++ c' :: right) = head k (left ++ c :: right) := by
        rw [head, head, publicAmong_congr hlabels.1 hlabels.2, hform]
        rfl
      rw [skeleton_node hk, skeleton_node hk, hhead, List.map_append, List.map_cons, List.map_append,
        List.map_cons, List.map_append, List.reverse_append]
      have hchild := Skeleton.Put.child (head k (left ++ c :: right)) (left.map skeleton)
        (right.map skeleton) hform hput
      rwa [List.length_map] at hchild

end Replaced

end SharpLint
