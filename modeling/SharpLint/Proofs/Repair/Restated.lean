import SharpLint.Proofs.Change.Exchange
import SharpLint.Proofs.Repair.Internal
import SharpLint.Proofs.Repair.Names

/-!
# Declarations that are internal already

The fix for one part of a type is for all of its parts. A part whose modifiers start with `internal`,
with no other one for accessibility, is written as it stands (`eq_self_of_standsInternal`); every other
part gets other words. Not even several edits can make up for each other: what they exchange is
compared from left to right (`restates_of_exchanged`). So edits that make declarations of a text
internal leave the words of the text as they are exactly when each of them restates its declaration:

    new.words = root.words → ∀ e, Restates root e             (restates_of_replaceTargets)
    (∀ e, Restates root e) → new = root                     (replaceTargets_of_restates)
-/

namespace SharpLint

open SharpLint.Tree

/-! ## Lists with some elements dropped -/

section

variable {α : Type} {p : α → Bool} {w : α} {ms xs ys : List α}

/-- With the same elements up to `w`, none was dropped. -/
theorem filter_eq_of_append (hw : p w = false)
    (h : ms ++ w :: xs = ms.filter (!p ·) ++ w :: ys) : (∀ m ∈ ms, p m = false) ∧ xs = ys := by
  induction ms with
  | nil => exact ⟨nofun, (List.cons.inj h).2⟩
  | cons m ms ih =>
    cases hm : p m with
    | false =>
      rw [List.filter_cons_of_pos (by simp [hm])] at h
      obtain ⟨hall, htail⟩ := ih (List.cons.inj h).2
      exact ⟨List.forall_mem_cons.mpr ⟨hm, hall⟩, htail⟩
    | true =>
      -- what is left of the elements starts with one that is kept, or with `w`
      rw [List.filter_cons_of_neg (by simp [hm])] at h
      have hhead : (ms.filter (!p ·) ++ w :: ys).head? = some m := by
        rw [← h]
        rfl
      cases hkept : ms.filter (!p ·) with
      | nil =>
        rw [hkept] at hhead
        obtain rfl := Option.some.inj hhead
        rw [hw] at hm
        cases hm
      | cons k ks =>
        rw [hkept] at hhead
        obtain rfl := Option.some.inj hhead
        have hk : k ∈ ms.filter (!p ·) := hkept ▸ List.mem_cons_self
        simpa [hm] using (List.mem_filter.mp hk).2

/-- With one element put in front and others dropped, the elements are the same if that one stood there
already and nothing else was dropped. -/
theorem cons_filter_eq_of_append {i : α} (hi : p i = true) (hw : p w = false)
    (h : ms ++ w :: xs = i :: (ms.filter (!p ·) ++ w :: ys)) :
    (∃ others, ms = i :: others ∧ ∀ m ∈ others, p m = false) ∧ xs = ys := by
  cases ms with
  | nil =>
    obtain rfl := (List.cons.inj h).1
    rw [hi] at hw
    cases hw
  | cons m ms =>
    obtain ⟨rfl, htail⟩ := List.cons.inj h
    rw [List.filter_cons_of_neg (by simp [hi])] at htail
    obtain ⟨hall, heq⟩ := filter_eq_of_append hw htail
    exact ⟨⟨ms, rfl, hall⟩, heq⟩

/-- Behind equal elements the first other one comes at one place only. -/
theorem eq_of_replicate_append {a b : α} (hne : a ≠ b) {count : Nat} (hms : ∀ m ∈ ms, m = a)
    (h : List.replicate count a ++ b :: xs = ms ++ b :: ys) : xs = ys := by
  induction count generalizing ms with
  | zero =>
    cases ms with
    | nil => exact (List.cons.inj h).2
    | cons m ms =>
      rw [List.forall_mem_cons] at hms
      exact absurd ((List.cons.inj h).1.trans hms.1).symm hne
  | succ count ih =>
    cases ms with
    | nil => exact absurd (List.cons.inj h).1 hne
    | cons m ms =>
      rw [List.forall_mem_cons] at hms
      exact ih hms.2 (List.cons.inj h).2

end

/-! ## The end of the text -/

/-- What another token follows is not the end of the text. -/
theorem EndsOnce.kind_ne {s : List Lexeme} (h : EndsOnce s) {a b : Token} {ts : List Token}
    (hsub : (a :: b :: ts).Sublist (s.map Lexeme.token)) : a.kind ≠ .endOfFile := by
  induction s with
  | nil => cases hsub
  | cons l s ih =>
    obtain ⟨hend, htail⟩ := h
    rw [List.map_cons] at hsub
    cases hsub with
    | cons _ hsub => exact ih htail hsub
    | cons_cons _ hsub =>
      intro hkind
      obtain ⟨rfl, -⟩ := hend hkind
      cases hsub

/-- A node with two tokens does not start with the end of the text. -/
theorem startsWithText_of_parse {text : String} {t : Tree} (h : parse text = .ok t) {n : Node}
    (hn : n.Inside t) (htwo : 2 ≤ n.tree.tokens.length) : StartsWithText n.tree.tokens := by
  intro a ha
  have hsub := hn.tokens_sublist
  have hspelled := (hn.sound (sound_parse h)).spelled
  obtain ⟨ls, hls, hunit⟩ := parse_eq_ok.mp h
  have hends := Lexeme.endsOnce_ofChars hls
  rw [tokens_compilationUnit hunit hends] at hsub
  match htokens : n.tree.tokens with
  | [] => rw [htokens] at ha; cases ha
  | [_] => rw [htokens] at htwo; exact absurd htwo (by simp)
  | first :: second :: ts =>
    rw [htokens] at ha hsub hspelled
    obtain rfl := Option.some.inj ha
    exact hspelled first List.mem_cons_self (hends.kind_ne hsub)

theorem tree_root_of_parse {text : String} {t : Tree} (h : parse text = .ok t) :
    (Node.root t).tree = t := by
  obtain ⟨ls, -, hunit⟩ := parse_eq_ok.mp h
  unfold compilationUnit at hunit
  split at hunit
  · cases hunit
  · obtain rfl := Except.ok.inj hunit
    rfl

namespace Repair.Visibility

/-! ## Modifiers -/

/-- The modifiers of a declaration. -/
def modifiersOf (n : Node) : List Token :=
  ((n.children.find? (·.kind? == some .modifierList)).map Tree.tokens).getD []

/-- The modifiers start with `internal`, and no other one is for accessibility. -/
def standsInternal (n : Node) : Bool :=
  match modifiersOf n with
  | [] => false
  | first :: others =>
    first.word == (.keyword .kwInternal, "internal") && others.all (!isAccessibility ·)

/-- The word is for accessibility. -/
def isAccessWord (w : TokenKind × String) : Bool := w.1.keyword?.any Keyword.isAccessibility

variable {n : Node} {r : Tree} {p : DeclarationParts}

theorem standsInternal_iff : standsInternal n = true ↔ ∃ others,
    (modifiersOf n).map Token.word = (.keyword .kwInternal, "internal") :: others ∧
      ∀ w ∈ others, isAccessWord w = false := by
  unfold standsInternal
  cases modifiersOf n with
  | nil => simp
  | cons first others =>
    have hothers : others.all (!isAccessibility ·) = true ↔
        ∀ w ∈ others.map Token.word, isAccessWord w = false := by
      rw [List.all_eq_true, List.forall_mem_map]
      exact forall₂_congr fun t _ => iff_of_eq (Bool.not_eq_true' (isAccessibility t))
    rw [Bool.and_eq_true, beq_iff_eq, hothers, List.map_cons]
    constructor
    · rintro ⟨hfirst, hall⟩
      exact ⟨_, by rw [hfirst], hall⟩
    · rintro ⟨_, hwords, hall⟩
      obtain ⟨hfirst, rfl⟩ := List.cons.inj hwords
      exact ⟨hfirst, hall⟩

theorem modifiersOf_eq (hp : n.children = p.children) : modifiersOf n = p.modifiers := by
  have hattributes : p.attributes.find? (·.kind? == some .modifierList) = none := by
    rw [List.find?_eq_none]
    intro c hc
    obtain ⟨cs, rfl⟩ := exists_of_label_node (p.label_attributes c hc)
    simp [kind?]
  rw [modifiersOf, hp, DeclarationParts.children, List.find?_append, hattributes, Option.none_or]
  exact tokensOf_map_token p.modifiers

theorem isAccessWord_typeWord (k : NodeKind) (text : String) :
    isAccessWord (k.typeWord, text) = false := by
  cases k
  all_goals rfl

/-- The word behind the modifiers is not for accessibility. -/
theorem isAccessWord_word (hn : n.tree.Shaped) (hkind : n.kind.isTypeDeclaration = true)
    (hp : n.children = p.children) : isAccessWord p.word.word = false := by
  obtain ⟨_, _, between, rest, ⟨count, rfl⟩, rfl, -, hlabels⟩ :=
    Node.isTypeDeclaration_form hn hkind
  rw [hp, DeclarationParts.children, List.map_append, List.append_assoc] at hlabels
  have hattributes : ∀ l ∈ p.attributes.map label, l = .node .attributeList := by
    intro l hl
    obtain ⟨c, hc, rfl⟩ := List.mem_map.mp hl
    exact p.label_attributes c hc
  have hword := eq_of_replicate_append (by decide) hattributes hlabels.symm
  have hsame : n.kind.typeWord = p.word.kind := Label.token.inj (List.cons.inj hword).1
  rw [Token.word, ← hsame]
  exact isAccessWord_typeWord n.kind p.word.text

/-- The words of a declaration. -/
theorem words_tree (hp : n.children = p.children) : n.tree.tokens.map Token.word =
    (tokensOf p.attributes).map Token.word ++
      (p.modifiers.map Token.word ++ p.word.word :: (tokensOf p.rest).map Token.word) := by
  rw [Node.tree, hp]
  simp [tokens, DeclarationParts.children, tokensOf, Build.modifierList, tokensOf_map_token]

theorem words_internalFirst (leading : List Trivia) (modifiers : List Token) :
    (internalFirst leading modifiers).map Token.word = (.keyword .kwInternal, "internal") ::
      (modifiers.map Token.word).filter (!isAccessWord ·) := by
  have hkept := congrArg (List.map Token.word) (map_keptModifiers modifiers)
  rw [List.map_map, List.map_map] at hkept
  rw [internalFirst_eq, List.map_cons, List.filter_map]
  exact congrArg _ hkept

/-- The words of a declaration made internal. -/
theorem words_withInternal (hp : n.children = p.children) (h : withInternal? n = some r) :
    r.tokens.map Token.word = (tokensOf p.attributes).map Token.word ++
      ((.keyword .kwInternal, "internal") ::
        (p.modifiers.map Token.word).filter (!isAccessWord ·) ++
          p.word.word :: (tokensOf p.rest).map Token.word) := by
  rw [withInternal?, hp, p.internalChildren?_children] at h
  obtain rfl := Option.some.inj h
  have hword : p.internal.word.word = p.word.word := by
    unfold DeclarationParts.internal
    split
    · rfl
    · rfl
  have hnew := words_tree (n := .root (.node n.kind p.internal.children)) (p := p.internal) rfl
  rw [hword] at hnew
  rw [← words_internalFirst p.first.leading]
  exact hnew

/-- Equal words that start with a declaration and with the same one made internal: it was internal
already. -/
theorem standsInternal_of_words (hn : n.tree.Shaped) (hkind : n.kind.isTypeDeclaration = true)
    (h : withInternal? n = some r) {xs ys : List (TokenKind × String)}
    (hwords : n.tree.tokens.map Token.word ++ xs = r.tokens.map Token.word ++ ys) :
    standsInternal n = true ∧ xs = ys := by
  obtain ⟨p, hp⟩ := exists_parts hn hkind
  rw [words_tree hp, words_withInternal hp h] at hwords
  simp only [List.append_assoc, List.cons_append, List.append_cancel_left_eq] at hwords
  obtain ⟨hfirst, hrest⟩ :=
    cons_filter_eq_of_append rfl (isAccessWord_word hn hkind hp) hwords
  refine ⟨standsInternal_iff.mpr ?_, List.append_cancel_left hrest⟩
  rwa [modifiersOf_eq hp]

/-- A declaration that is internal already is not changed. -/
theorem eq_self_of_standsInternal (hn : n.tree.Shaped) (hkind : n.kind.isTypeDeclaration = true)
    (h : withInternal? n = some r) (hstands : standsInternal n = true) : r = n.tree := by
  obtain ⟨⟨attributes, modifiers, word, rest, hlabel⟩, hp⟩ := exists_parts hn hkind
  rw [withInternal?, hp, DeclarationParts.internalChildren?_children] at h
  obtain rfl := Option.some.inj h
  unfold standsInternal at hstands
  rw [modifiersOf_eq hp] at hstands
  cases modifiers with
  | nil => cases hstands
  | cons first others =>
    obtain ⟨hfirst, hothers⟩ := Bool.and_eq_true_iff.mp hstands
    obtain ⟨hfirstKind, hfirstText⟩ := Prod.mk.inj (beq_iff_eq.mp hfirst)
    have haccess : isAccessibility first = true := by
      rw [isAccessibility, hfirstKind]
      rfl
    have hsame : internalFirst first.leading (first :: others) = first :: others := by
      rw [internalFirst_of_first haccess fun m hm => by simpa using List.all_eq_true.mp hothers m hm]
      obtain ⟨kind, text, leading, trailing⟩ := first
      obtain rfl := hfirstKind
      obtain rfl := hfirstText
      rfl
    rw [Node.tree, hp]
    exact congrArg (fun ms => Tree.node n.kind (attributes ++ Build.modifierList ms ::
      .token word :: rest)) hsame

/-- A declaration made internal starts with text if the declaration does. -/
theorem startsWithText_withInternal (hn : n.tree.Shaped) (hkind : n.kind.isTypeDeclaration = true)
    (h : withInternal? n = some r) (hstart : StartsWithText n.tree.tokens) :
    StartsWithText r.tokens := by
  obtain ⟨p, hp⟩ := exists_parts hn hkind
  rw [Node.tree, hp] at hstart
  rw [withInternal?, hp, p.internalChildren?_children] at h
  obtain rfl := Option.some.inj h
  have hinternal : (Token.ofKind (.keyword .kwInternal)).text ≠ "" := by decide
  simp only [tokens, DeclarationParts.children, tokensOf_append] at hstart ⊢
  show StartsWithText (tokensOf p.attributes ++ _)
  cases hattributes : tokensOf p.attributes with
  | nil =>
    intro t ht
    obtain rfl := Option.some.inj ht
    exact hinternal
  | cons a ts =>
    rw [hattributes] at hstart
    exact hstart

/-- A declaration has a word and a name. -/
theorem two_le_tokens (hn : n.tree.Shaped) (hkind : n.kind.isTypeDeclaration = true) :
    2 ≤ n.tree.tokens.length := by
  obtain ⟨attributes, list, word, between, name, rest, hchildren, -⟩ :=
    Node.exists_typeName_split hn hkind
  rw [Node.tree, hchildren]
  simp only [tokens, tokensOf_append, tokensOf, List.length_append, List.length_singleton]
  omega

/-! ## Edits -/

/-- The edit is for a declaration that is internal already. -/
def Restates (root : Tree) (e : Edit) : Prop :=
  ∃ n, (Node.root root).findNode? e.target e.kind = some n ∧ n.kind.isTypeDeclaration = true ∧
    standsInternal n = true

variable {root new : Tree}

/-- Exchanged tokens with equal words: all declarations were internal already. -/
theorem restates_of_exchanged {edits : List Edit} {ts us : List Token}
    (h : Exchanged root edits ts us) (hroot : root.Shaped)
    (hmakes : ∀ e ∈ edits, MakesInternal root e) {xs ys : List (TokenKind × String)}
    (hwords : ts.map Token.word ++ xs = us.map Token.word ++ ys) :
    (∀ e ∈ edits, Restates root e) ∧ xs = ys := by
  induction h with
  | rest ts => exact ⟨nofun, List.append_cancel_left hwords⟩
  | @target e n edits ts us front found _ ih =>
    rw [List.forall_mem_cons] at hmakes
    obtain ⟨m, hm, hkind, hnew⟩ := hmakes.1
    obtain rfl := Option.some.inj (found.symm.trans hm)
    simp only [List.map_append, List.append_assoc, List.append_cancel_left_eq] at hwords
    obtain ⟨hstands, hrest⟩ := standsInternal_of_words
      ((Node.Inside.of_findNode? found).shaped hroot) hkind hnew hwords
    obtain ⟨hall, heq⟩ := ih hmakes.2 hrest
    exact ⟨List.forall_mem_cons.mpr ⟨⟨n, found, hkind, hstands⟩, hall⟩, heq⟩

variable {text : String} {document : DocumentId} {edits : List Located}

/-- Edits that make declarations of a text internal and leave its words as they are restate them all. -/
theorem restates_of_replaceTargets (hparse : parse text = .ok root) (h : FitsFromRight root edits)
    (hmakes : ∀ l ∈ edits, MakesInternal root l.edit)
    (hok : replaceTargets document root (edits.map Located.edit) = .ok new)
    (hwords : root.tokens.map Token.word = new.tokens.map Token.word) :
    ∀ l ∈ edits, Restates root l.edit := by
  have hshaped := (sound_parse hparse).shaped
  have hstart : ∀ l ∈ edits, StartsWithText l.edit.replacement.tokens := by
    intro l hl
    obtain ⟨n, hn, hkind, hnew⟩ := hmakes l hl
    have hinside := Node.Inside.of_findNode? hn
    have hn := hinside.shaped hshaped
    exact startsWithText_withInternal hn hkind hnew
      (startsWithText_of_parse hparse hinside (two_le_tokens hn hkind))
  have hexchanged := exchanged_of_replaceTargets document h hstart hok
  have hreverse : ∀ e ∈ (edits.map Located.edit).reverse, MakesInternal root e := by
    intro e he
    obtain ⟨l, hl, rfl⟩ := List.mem_map.mp (List.mem_reverse.mp he)
    exact hmakes l hl
  have hends : root.tokens.map Token.word ++ [] = new.tokens.map Token.word ++ [] := by rw [hwords]
  obtain ⟨hall, -⟩ := restates_of_exchanged hexchanged hshaped hreverse hends
  exact fun l hl => hall _ (List.mem_reverse.mpr (List.mem_map_of_mem hl))

/-- Edits that restate declarations leave the tree as it is. -/
theorem replaceTargets_of_restates (hparse : parse text = .ok root) (h : FitsFromRight root edits)
    (hmakes : ∀ l ∈ edits, MakesInternal root l.edit)
    (hok : replaceTargets document root (edits.map Located.edit) = .ok new)
    (hrestates : ∀ l ∈ edits, Restates root l.edit) : new = root := by
  refine replaceTargets_eq_self document (tree_root_of_parse hparse) h (fun l hl n hn => ?_) hok
  obtain ⟨m, hm, hkind, hnew⟩ := hmakes l hl
  obtain ⟨m', hm', -, hstands⟩ := hrestates l hl
  obtain rfl := Option.some.inj (hn.symm.trans hm)
  obtain rfl := Option.some.inj (hn.symm.trans hm')
  exact eq_self_of_standsInternal ((Node.Inside.of_findNode? hn).shaped (sound_parse hparse).shaped)
    hkind hnew hstands

end Repair.Visibility

end SharpLint
