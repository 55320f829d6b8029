import SharpLint.Proofs.Grammar.CarrySite

/-!
# Expressions and patterns carry over

One lemma for each production, in the order of the grammar: from the productions `g` of the old run to
those of the new one, `w`. Where a production starts with a token that can be the opener, it has to go on
with the operand of the site; what can stand there is among the facts of `Inner.Carried`, and a type
cannot (`OperandAhead.type`), so that a production that asks for a type fails there in the old text.
-/

namespace SharpLint

open Production

/-- All productions that others refer to carry over from the old run to the new one, and those that an
opener leads to do so at the site. -/
structure Inner.Carried (σ : Site) (g w : Inner) : Prop where
  reads : g.Reads
  reads' : w.Reads
  whole : w.unfold = w
  readType : g.type = Inner.whole.type
  readType' : w.type = Inner.whole.type
  expression : Production.Carried σ False g.expression w.expression
  unary : Production.Carried σ False g.unary w.unary
  coalesce : Production.Carried σ False g.coalesce w.coalesce
  binary : ∀ least, Production.Carried σ False (g.binary least) (w.binary least)
  pattern : Production.Carried σ False g.pattern w.pattern
  negatedPattern : Production.Carried σ False g.negatedPattern w.negatedPattern
  initializer : Production.Carried σ False g.initializer w.initializer
  block : Production.Carried σ False g.block w.block
  statement : Production.Carried σ False g.statement w.statement
  member : Production.Carried σ False g.member w.member
  members : ∀ stop, stop.isAccess = false → Production.Carried σ False (g.members stop) (w.members stop)
  atUnary : Carries σ False g.unary w.unary σ.old σ.new
  atBinary : ∀ least, Carries σ False (g.binary least) (w.binary least) σ.old σ.new
  atCoalesce : Carries σ False g.coalesce w.coalesce σ.old σ.new
  atExpression : σ.opener.token.kind.opensWhole = true →
    Carries σ False g.expression w.expression σ.old σ.new

theorem Inner.Carried.type {σ : Site} {g w : Inner} (h : Inner.Carried σ g w) (hσ : σ.Fits) :
    Production.Carried σ False g.type w.type := by
  rw [h.readType, h.readType']
  exact fun s t hst => (carried_wholeType hσ.toOpens s t hst).mono False.elim

namespace Grammar

variable {σ : Site} (hσ : σ.Fits) {s t : List Lexeme}
include hσ

/-! ## Names -/

theorem carried_qualifiedName : Carried σ False qualifiedName qualifiedName := by
  have hname : Carried σ False (expect .identifier "name") (expect .identifier "name") :=
    .expect hσ.toOpens rfl
  have hpart (s t : List Lexeme) (h : σ.Aligned s t) (hs : atDotName s = true) :
      Carries σ False (seq [bump, node .identifierName bump]) (seq [bump, node .identifierName bump])
        s t := by
    obtain ⟨hdot, hidentifier⟩ := Bool.and_eq_true_iff.mp hs
    have hkind : kindAhead 0 s = .dot := beq_iff_eq.mp hdot
    refine .bump_drop hσ.toOpens h (hkind ▸ rfl) (ready_of_atDotName s hs) False.elim
      fun s' t' h' hdrop _ => ?_
    rw [Site.kindAhead_drop, ← hdrop] at hidentifier
    exact (Carries.node (.bump_kind hσ.toOpens h' hidentifier rfl)).seq trivial
  have hparts : Carried σ False (many atDotName (seq [bump, node .identifierName bump]))
      (many atDotName (seq [bump, node .identifierName bump])) :=
    .many hσ.toOpens (fun _ _ => atDotName_aligned hσ.toOpens)
      (fun _ => Repeats.nameParts.reads Inner.reads_whole)
      (fun _ => Repeats.nameParts.reads Inner.reads_whole) hpart
  intro s t h
  exact (Carries.node (hname s t h)).extend_suffixed
    (.ite (fun _ _ => atDotName_aligned hσ.toOpens) fun s t h _ => hparts s t h)

/-! ## Attributes and parameters -/

section

omit hσ

/-- Lexemes that are no brackets are read without being looked at. -/
theorem readsTo_insideBrackets (depth : Nat) {x rest : List Lexeme}
    (hx : ∀ l ∈ x, l.token.kind.swaps = true) :
    ReadsTo (insideBrackets depth) (x ++ s) rest ↔ ReadsTo (insideBrackets depth) s rest := by
  induction x with
  | nil => exact Iff.rfl
  | cons l x ih =>
    obtain ⟨hl, hx⟩ := List.forall_mem_cons.mp hx
    have hne {k : TokenKind} (hk : k.swaps = false) : l.token.kind ≠ k := by
      rintro rfl
      rw [hl] at hk
      cases hk
    have hdepth : depthBehind depth l.token.kind = depth := by
      unfold depthBehind
      split
      · rename_i hk
        exact absurd hk (hne rfl)
      · rename_i hk
        exact absurd hk (hne rfl)
      · rfl
    rw [← ih hx, List.cons_append]
    have hstep := insideBrackets_eq depth l (x ++ s)
    rw [if_neg (hne rfl), if_neg fun h => hne rfl h.1, hdepth] at hstep
    constructor
    · rintro ⟨ts, hts⟩
      obtain ⟨ts₁, mid, us, hkeep, hus, -⟩ := seq_pair_eq_ok (hstep.symm.trans hts)
      rw [(keep_eq_ok hkeep).2] at hus
      exact ⟨us, hus⟩
    · rintro ⟨us, hus⟩
      refine ⟨[.token l.token] ++ (us ++ []), hstep.trans ?_⟩
      simp only [seq, andThen, keep, hus, empty]

theorem insideBrackets_close {depth : Nat} {s rest : List Lexeme} {ts : List Tree}
    (h : insideBrackets depth s = .ok (ts, rest)) : kindAhead 0 rest = .closeBracket := by
  induction s generalizing depth ts with
  | nil => cases h
  | cons l s ih =>
    obtain ⟨hclose, -, rfl⟩ | ⟨depth', us, hok, -⟩ := insideBrackets_cons h
    · exact hclose
    · exact ih hok

end

/-- At an opener, what stands inside of the brackets goes on over the site. -/
theorem carries_insideBrackets_site (depth : Nat)
    (h : ∀ s t, Same s t → Carries σ False (insideBrackets depth) (insideBrackets depth) s t) :
    Carries σ False (insideBrackets depth) (insideBrackets depth) σ.old σ.new := by
  obtain ⟨x, y, b, b', hold, hnew, hb, hx, hy⟩ := hσ.swap.split
  intro ts rest hok
  rw [hold] at hok
  obtain ⟨us, hus⟩ := (readsTo_insideBrackets depth hx).mp ⟨ts, hok⟩
  obtain ⟨vs, rest', hvs, -, hrest⟩ := h b b' hb us rest hus
  obtain ⟨ws, hws⟩ := (readsTo_insideBrackets depth hy).mpr ⟨vs, hvs⟩
  exact ⟨ws, rest', hnew ▸ hws, False.elim, hrest⟩

theorem carried_insideBrackets (depth : Nat) :
    Carried σ False (insideBrackets depth) (insideBrackets depth) := by
  -- one lexeme, and what goes on behind it
  have hcons {x y : Lexeme} {s t : List Lexeme} {depth : Nat} (hx : x.token.kind ≠ .endOfFile)
      (hxy : x.Near y) (hhere : σ.Aligned (x :: s) (y :: t))
      (hmore : Carries σ False (insideBrackets (depthBehind depth x.token.kind))
        (insideBrackets (depthBehind depth x.token.kind)) s t) :
      Carries σ False (insideBrackets depth) (insideBrackets depth) (x :: s) (y :: t) := by
    have hy := hxy.ne_end hx
    have hkinds : (y.token.kind = .closeBracket ↔ x.token.kind = .closeBracket) ∧
        depthBehind depth y.token.kind = depthBehind depth x.token.kind := by
      rcases hxy.kind with hkind | ⟨hx, hy⟩
      · rw [hkind]
        exact ⟨Iff.rfl, rfl⟩
      · obtain ⟨v, hv, -⟩ := TokenKind.isAccess_iff.mp hx
        obtain ⟨w, hw, -⟩ := TokenKind.isAccess_iff.mp hy
        rw [hv, hw]
        exact ⟨by simp, rfl⟩
    obtain ⟨hclose, hdepth⟩ := hkinds
    have hstep := insideBrackets_eq depth x s
    have hstep' := insideBrackets_eq depth y t
    rw [if_neg hx] at hstep
    rw [if_neg hy] at hstep'
    by_cases hend : x.token.kind = .closeBracket ∧ depth = 0
    · rw [if_pos hend] at hstep
      rw [if_pos ⟨hclose.mpr hend.1, hend.2⟩] at hstep'
      exact .of_eq hstep hstep' (Carried.empty _ _ hhere)
    · rw [if_neg hend] at hstep
      rw [if_neg fun h => hend ⟨hclose.mp h.1, h.2⟩, hdepth] at hstep'
      exact .of_eq hstep hstep' (.keep_seq False.elim (hmore.seq trivial))
  have hsame (s t : List Lexeme) (h : Same s t) (depth : Nat) :
      Carries σ False (insideBrackets depth) (insideBrackets depth) s t := by
    induction h generalizing depth with
    | @ends a b ha _ =>
      refine .of_fails fun ts rest hok => ?_
      rw [insideBrackets_eq, if_pos ha] at hok
      cases hok
    | cons ha hab hshift h ih => exact hcons ha hab (.behind (.cons ha hab hshift h)) (ih _)
  intro s t h
  cases h with
  | behind h => exact hsame s t h depth
  | @before a ha =>
    induction a generalizing depth with
    | nil =>
      refine hcons (hσ.kind_ne rfl) (.inl rfl) (.before ha) ?_
      exact carries_insideBrackets_site hσ _ fun s t h => hsame s t h _
    | cons x a ih => exact hcons ha.1 (.inl rfl) (.before ha) (ih _ ha.tail)

theorem carried_attributes : Carried σ False attributes attributes := by
  refine .many hσ.toOpens (fun _ _ h => h.atKind hσ.toOpens rfl)
    (fun _ => Repeats.attributeLists.reads Inner.reads_whole)
    (fun _ => Repeats.attributeLists.reads Inner.reads_whole) fun s t h hs => .node ?_
  have hkind : kindAhead 0 s = .openBracket := beq_iff_eq.mp hs
  refine .bump_drop hσ.toOpens h (hkind ▸ rfl) (ready_of_atKind hs nofun) False.elim
    fun s' t' h' _ _ => ?_
  refine (carried_insideBrackets hσ 0 s' t' h').andThen fun ts us s₁ t₁ hok _ h₁ => ?_
  exact (Carries.bump_kind hσ.toOpens h₁ (k := .closeBracket)
    (beq_iff_eq.mpr (insideBrackets_close hok)) rfl).seq trivial

omit hσ in
theorem isModifier_of_isAccess {j k : TokenKind} (hj : j.isAccess = true) (hk : k.isAccess = true) :
    j.keyword?.any Keyword.isModifier = k.keyword?.any Keyword.isModifier := by
  refine TokenKind.eq_of_isAccess (f := fun k => k.keyword?.any Keyword.isModifier) (a := true)
    (fun w hw => ?_) hj hk
  cases w <;> first | rfl | cases hw

omit hσ in
theorem opens_of_isModifier {k : TokenKind} (h : k.keyword?.any Keyword.isModifier = true) :
    k.opens = false := by
  cases k with
  | keyword w => cases w <;> first | rfl | cases h
  | _ => cases h

theorem carried_modifiers : Carried σ False modifiers modifiers :=
  .node <| .many hσ.toOpens
    (fun _ _ h => h.test hσ.toOpens (f := fun k => k.keyword?.any Keyword.isModifier)
      fun _ _ => isModifier_of_isAccess)
    (fun _ => Repeats.modifiers.reads Inner.reads_whole)
    (fun _ => Repeats.modifiers.reads Inner.reads_whole)
    fun _ _ h hs => .bump hσ.toOpens h (opens_of_isModifier hs) False.elim

theorem atParameterModifier_aligned (h : σ.Aligned s t) :
    atParameterModifier t = atParameterModifier s := by
  rcases h.kind hσ.toOpens with hkind | ⟨hs, ht⟩
  · rw [atParameterModifier, atParameterModifier, hkind]
  · have hnone {s : List Lexeme} (hs : (kindAhead 0 s).isAccess = true) :
        atParameterModifier s = false := by
      obtain ⟨v, hv, hword⟩ := TokenKind.isAccess_iff.mp hs
      rw [atParameterModifier, hv]
      cases v <;> first | rfl | cases hword
    rw [hnone hs, hnone ht]

theorem atByReference_aligned (h : σ.Aligned s t) : atByReference t = atByReference s := by
  rw [atByReference, atByReference, h.atKeyword hσ.toOpens (by rfl), h.atKeyword hσ.toOpens (by rfl),
    h.atKeyword hσ.toOpens rfl]

omit hσ in
theorem opens_of_atParameterModifier (hs : atParameterModifier s = true) :
    (kindAhead 0 s).opens = false := by
  unfold atParameterModifier at hs
  generalize kindAhead 0 s = k at hs
  cases k with
  | keyword w => cases w <;> first | rfl | cases hs
  | _ => cases hs

omit hσ in
theorem opens_of_atByReference (hs : atByReference s = true) : (kindAhead 0 s).opens = false := by
  simp only [atByReference, atKeyword, SharpLint.atKind, Bool.or_eq_true, beq_iff_eq] at hs
  obtain (hs | hs) | hs := hs <;> rw [hs] <;> rfl

theorem carried_parameterModifiers : Carried σ False (node .modifierList (many atParameterModifier bump))
    (node .modifierList (many atParameterModifier bump)) :=
  .node <| .many hσ.toOpens (fun _ _ => atParameterModifier_aligned hσ)
    (fun _ => Repeats.parameterModifiers.reads Inner.reads_whole)
    (fun _ => Repeats.parameterModifiers.reads Inner.reads_whole)
    fun _ _ h hs => .bump hσ.toOpens h (opens_of_atParameterModifier hs) False.elim

/-! ## Parentheses in front of an arrow -/

section

omit hσ

theorem closesBeforeArrow_skip (depth : Nat) {l : Lexeme} (hopen : l.token.kind ≠ .openParen)
    (hclose : l.token.kind ≠ .closeParen) (hend : l.token.kind ≠ .endOfFile) :
    closesBeforeArrow depth (l :: s) = closesBeforeArrow depth s := by
  rw [closesBeforeArrow]
  split
  · rename_i hk
    exact absurd hk hopen
  · rename_i hk
    exact absurd hk hclose
  · rename_i hk
    exact absurd hk hend
  · rfl

theorem closesBeforeArrow_openParen (depth : Nat) {l : Lexeme} (hl : l.token.kind = .openParen) :
    closesBeforeArrow depth (l :: s) = closesBeforeArrow (depth + 1) s := by
  rw [closesBeforeArrow, hl]

theorem closesBeforeArrow_closeParen (depth : Nat) {l : Lexeme} (hl : l.token.kind = .closeParen) :
    closesBeforeArrow depth (l :: s) =
      if depth ≤ 1 then atKind .arrow s else closesBeforeArrow (depth - 1) s := by
  rw [closesBeforeArrow, hl]

theorem closesBeforeArrow_path (depth : Nat) {path : List Lexeme} (h : Path path) :
    closesBeforeArrow depth (path ++ s) = closesBeforeArrow depth s := by
  have hnames {names : List Lexeme} (hnames : Dotted names) :
      closesBeforeArrow depth (names ++ s) = closesBeforeArrow depth s := by
    induction hnames with
    | none => rfl
    | more hdot hname _ ih =>
      rw [List.cons_append, List.cons_append, ← ih]
      rw [closesBeforeArrow_skip depth (hdot ▸ nofun) (hdot ▸ nofun) (hdot ▸ nofun),
        closesBeforeArrow_skip depth (hname ▸ nofun) (hname ▸ nofun) (hname ▸ nofun)]
  cases h with
  | @mk head names hhead hdotted =>
    have hne {k : TokenKind} (hk : k.startsPath = false) : head.token.kind ≠ k := by
      rintro rfl
      rw [hhead] at hk
      cases hk
    rw [List.cons_append, closesBeforeArrow_skip depth (hne rfl) (hne rfl) (hne rfl), hnames hdotted]

end

theorem closesBeforeArrow_same (h : Same s t) (depth : Nat) :
    closesBeforeArrow depth t = closesBeforeArrow depth s := by
  induction h generalizing depth with
  | @ends a b ha hab => simp only [closesBeforeArrow, ← hab, ha]
  | @cons a b s t ha hab _ hst ih =>
    rcases hab.kind with hkind | ⟨hs, ht⟩
    · have harrow : atKind .arrow t = atKind .arrow s :=
        (Site.Aligned.behind (σ := σ) hst).atKind hσ.toOpens rfl
      rw [closesBeforeArrow, closesBeforeArrow, hkind]
      simp only [ih, harrow]
    · obtain ⟨v, hv, -⟩ := TokenKind.isAccess_iff.mp hs
      obtain ⟨w, hw, -⟩ := TokenKind.isAccess_iff.mp ht
      rw [closesBeforeArrow_skip depth (l := b) (hw ▸ nofun) (hw ▸ nofun) (hw ▸ nofun),
        closesBeforeArrow_skip depth (l := a) (hv ▸ nofun) (hv ▸ nofun) (hv ▸ nofun), ih]

/-- Inside of a parenthesis, the new call closes the parentheses that it opens. -/
theorem closesBeforeArrow_swap {whole bracket : Prop} {old new : List Lexeme}
    (h : Swap whole bracket old new)
    {depth : Nat} (hdepth : 1 ≤ depth) :
    closesBeforeArrow depth new = closesBeforeArrow depth old := by
  cases h with
  | operand hpath hname hpath' hl hr _ _ hb =>
    have hdepth' : ¬depth + 1 ≤ 1 := by omega
    rw [closesBeforeArrow_path depth hname, closesBeforeArrow_openParen depth hl,
      closesBeforeArrow_path _ hpath', closesBeforeArrow_closeParen _ hr, if_neg hdepth',
      closesBeforeArrow_path depth hpath, Nat.add_sub_cancel, closesBeforeArrow_same hσ hb]
  | call hpath hname hpath' hl hl' _ hb =>
    rw [closesBeforeArrow_path depth hname, closesBeforeArrow_openParen depth hl',
      closesBeforeArrow_path _ hpath', closesBeforeArrow_path depth hpath,
      closesBeforeArrow_openParen depth hl, closesBeforeArrow_same hσ hb]
  | callMore hpath hname hpath' hl hl' _ hc hb =>
    rw [closesBeforeArrow_path depth hname, closesBeforeArrow_openParen depth hl',
      closesBeforeArrow_path _ hpath',
      closesBeforeArrow_skip _ (hc ▸ nofun) (hc ▸ nofun) (hc ▸ nofun),
      closesBeforeArrow_path depth hpath, closesBeforeArrow_openParen depth hl,
      closesBeforeArrow_same hσ hb]

/-- A parenthesis is closed in front of an arrow in both texts or in none. -/
theorem closesBeforeArrow_aligned {depth : Nat} (hst : σ.Aligned s t)
    (hdepth : 1 ≤ depth ∨ kindAhead 0 s = .openParen) :
    closesBeforeArrow depth t = closesBeforeArrow depth s := by
  cases hst with
  | behind hst => exact closesBeforeArrow_same hσ hst depth
  | @before a ha =>
    induction a generalizing depth with
    | nil =>
      rw [List.nil_append, List.nil_append]
      by_cases hopen : σ.opener.token.kind = .openParen
      · rw [closesBeforeArrow_openParen depth hopen, closesBeforeArrow_openParen depth hopen]
        exact closesBeforeArrow_swap hσ hσ.swap (Nat.le_add_left 1 depth)
      · have hdepth : 1 ≤ depth := hdepth.resolve_right hopen
        rw [closesBeforeArrow_skip depth hopen (hσ.kind_ne rfl) (hσ.kind_ne rfl),
          closesBeforeArrow_skip depth hopen (hσ.kind_ne rfl) (hσ.kind_ne rfl)]
        exact closesBeforeArrow_swap hσ hσ.swap hdepth
    | cons x a ih =>
      rw [List.cons_append, List.cons_append]
      by_cases hopen : x.token.kind = .openParen
      · rw [closesBeforeArrow_openParen depth hopen, closesBeforeArrow_openParen depth hopen]
        exact ih ha.tail (.inl (Nat.le_add_left 1 depth))
      have hdepth : 1 ≤ depth := hdepth.resolve_right hopen
      by_cases hclose : x.token.kind = .closeParen
      · rw [closesBeforeArrow_closeParen depth hclose, closesBeforeArrow_closeParen depth hclose,
          (Site.Aligned.before ha.tail).atKind hσ.toOpens rfl]
        by_cases hlast : depth ≤ 1
        · rw [if_pos hlast, if_pos hlast]
        · rw [if_neg hlast, if_neg hlast]
          exact ih ha.tail (.inl (by omega))
      · rw [closesBeforeArrow_skip depth hopen hclose ha.1,
          closesBeforeArrow_skip depth hopen hclose ha.1]
        exact ih ha.tail (.inl hdepth)

section

variable {g w : Inner} (h : Inner.Carried σ g w)
include h

theorem carried_readType : Carried σ False (type g) (type w) := by
  rw [type_eq_whole h.readType, type_eq_whole h.readType']
  exact fun s t hst => (carried_wholeType hσ.toOpens s t hst).mono False.elim

theorem carried_elements : Carried σ False (elements g) (elements w) := by
  have helement : Carried σ False
      (look fun s => if atKind .openBrace s then g.initializer else g.expression)
      (look fun s => if atKind .openBrace s then w.initializer else w.expression) := by
    refine fun s t hst => .look ?_
    rw [hst.atKind hσ.toOpens (by rfl)]
    exact .ite (fun _ => h.initializer s t hst) fun _ => h.expression s t hst
  have hitems := Carried.items hσ.toOpens h.reads h.reads'
    (fun s t hst => by rw [hst.atKind hσ.toOpens (by rfl)]) Lists.elements Lists.elements helement
  exact .seq ⟨.expect hσ.toOpens rfl, hitems, .expect hσ.toOpens rfl, trivial⟩

theorem carried_initializer : Carried σ False (initializer g) (initializer w) :=
  (carried_elements hσ h).node

theorem carries_equalsValue (hst : σ.Aligned s t) (hs : atKind .eq s = true) :
    Carries σ False (equalsValue g) (equalsValue w) s t := by
  refine .node (.open_seq hσ.toOpens hst (ready_of_atKind hs nofun) False.elim
    (fun hopener _ => ?_) fun s' t' hst' _ _ => .seq ?_ trivial)
  · have hwhole : σ.opener.token.kind.opensWhole = true := by
      have hkind : kindAhead 0 s = .eq := beq_iff_eq.mp hs
      rw [hopener] at hkind
      rw [show σ.opener.token.kind = .eq from hkind]
      rfl
    refine .seq (.look ?_) trivial
    rw [hσ.swap.old_ahead.atKind (by rfl), hσ.swap.new_ahead.atKind (by rfl)]
    exact h.atExpression hwhole
  · refine .look ?_
    rw [hst'.atKind hσ.toOpens (by rfl)]
    exact .ite (fun _ => carried_initializer hσ h s' t' hst') fun _ => h.expression s' t' hst'

theorem carried_defaultValue :
    Carried σ False (whenever (atKind .eq) (equalsValue g)) (whenever (atKind .eq) (equalsValue w)) :=
  .whenever (fun _ _ hst => hst.atKind hσ.toOpens rfl) fun _ _ => carries_equalsValue hσ h

theorem carried_parameter : Carried σ False (parameter g) (parameter w) :=
  .node (.seq ⟨carried_attributes hσ, carried_parameterModifiers hσ, carried_readType hσ h,
    .expect hσ.toOpens rfl, carried_defaultValue hσ h, trivial⟩)

theorem carried_listUpTo {close : TokenKind} {what : String} {item item' : Production}
    (hclose : close.isPlain = true) (hitem : Carried σ False item item')
    (hseparates : Separates g item) (hseparates' : Separates w item') :
    Carried σ False (listUpTo close what item) (listUpTo close what item') := by
  have hnone : close.isAccess = false := (TokenKind.isPlain_iff.mp hclose).2
  refine .seq ⟨.whenever (fun s t hst => by rw [hst.atKind hσ.toOpens hnone]) fun s t hst _ => ?_,
    .expect hσ.toOpens hclose, trivial⟩
  exact Carried.separated hσ.toOpens h.reads h.reads' hseparates hseparates' hitem s t hst

/-- Behind an opening parenthesis that is the opener, the first item is the operand. -/
theorem carries_listUpTo_site {what : String} {item item' : Production}
    (hitem : Carried σ False item item') (hfirst : Carries σ False item item' σ.old σ.new)
    (hseparates : Separates g item) (hseparates' : Separates w item') :
    Carries σ False (listUpTo .closeParen what item) (listUpTo .closeParen what item') σ.old σ.new := by
  have hold : (!atKind .closeParen σ.old) = true := by rw [hσ.swap.old_ahead.atKind (by rfl)]; rfl
  have hnew : (!atKind .closeParen σ.new) = true := by rw [hσ.swap.new_ahead.atKind (by rfl)]; rfl
  refine Carries.seq (.whenever_true hold hnew ?_) ⟨.expect hσ.toOpens rfl, trivial⟩
  exact .separated hσ.toOpens h.reads h.reads' hseparates hseparates' hfirst hitem

omit hσ h in
theorem opensWhole_of_atKind {k : TokenKind} {s : List Lexeme} (hs : atKind k (σ.opener :: s) = true)
    (hk : k.opensWhole = true) : σ.opener.token.kind.opensWhole = true := by
  rwa [show σ.opener.token.kind = k from beq_iff_eq.mp hs]

theorem carried_parameterList : Carried σ False (parameterList g) (parameterList w) := by
  refine .node (.expect_seq hσ.toOpens rfl nofun (fun hopener => ?_)
    ⟨carried_listUpTo hσ h rfl (carried_parameter hσ h) .parameters .parameters, trivial⟩)
  have hwhole : σ.opener.token.kind.opensWhole = true := by rw [hopener]; rfl
  exact (carries_listUpTo_site hσ h (carried_parameter hσ h)
    (.of_fails (hσ.swap.old_ahead.parameter_fails hwhole)) .parameters .parameters).seq trivial

theorem carries_bracketedParameterList (hst : σ.Aligned s t) (hs : atKind .openBracket s = true) :
    Carries σ False (bracketedParameterList g) (bracketedParameterList w) s t := by
  have hparameters : Carried σ False (separated (parameter g)) (separated (parameter w)) :=
    .separated hσ.toOpens h.reads h.reads' .parameters .parameters (carried_parameter hσ h)
  exact .node ((Carries.bump_kind hσ.toOpens hst hs rfl).seq
    ⟨hparameters, .expect hσ.toOpens rfl, trivial⟩)

theorem carries_lambdaParameterList (hst : σ.Aligned s t) (hs : atKind .openParen s = true) :
    Carries σ False (lambdaParameterList g) (lambdaParameterList w) s t := by
  have hitem : Carried σ False
      (look fun s =>
        if atKind .identifier s && (kindAhead 1 s == .comma || kindAhead 1 s == .closeParen) then
          node .parameter bump
        else parameter g)
      (look fun s =>
        if atKind .identifier s && (kindAhead 1 s == .comma || kindAhead 1 s == .closeParen) then
          node .parameter bump
        else parameter w) := by
    refine fun s t hst => .look ?_
    rw [Bool.and_or_distrib_left, Bool.and_or_distrib_left, hst.both hσ.toOpens (by rfl) (by rfl),
      hst.both hσ.toOpens (by rfl) (by rfl)]
    refine .ite (fun hs => ?_) fun _ => carried_parameter hσ h s t hst
    rw [← Bool.and_or_distrib_left] at hs
    exact .node (.bump_kind hσ.toOpens hst (Bool.and_eq_true_iff.mp hs).1 rfl)
  refine .node (.open_seq hσ.toOpens hst (ready_of_atKind hs nofun) False.elim
    (fun hopener _ => ?_) fun s' t' hst' _ _ => ?_)
  · have hwhole := opensWhole_of_atKind (hopener ▸ hs) rfl
    refine (carries_listUpTo_site hσ h hitem ?_ .lambdaParameters .lambdaParameters).seq trivial
    refine .look (.of_fails ?_)
    rw [hσ.swap.old_ahead.secondIs hwhole .comma nofun nofun nofun,
      hσ.swap.old_ahead.secondIs hwhole .closeParen nofun nofun nofun, Bool.or_false, Bool.and_false]
    exact hσ.swap.old_ahead.parameter_fails hwhole
  · exact .seq (carried_listUpTo hσ h rfl hitem .lambdaParameters .lambdaParameters s' t' hst')
      trivial

/-! ## Arguments -/

theorem declaresVariable_aligned {close : TokenKind} (hclose : close.isAccess = false)
    (hst : σ.Aligned s t) : declaresVariable w close t = declaresVariable g close s := by
  refine testAfterType_aligned hσ.toOpens h.readType h.readType' (fun s t hst => ?_) hst
  rw [Bool.and_or_distrib_left, Bool.and_or_distrib_left, hst.both hσ.toOpens rfl hclose,
    hst.both hσ.toOpens rfl rfl]

theorem carried_argument {close : TokenKind} (hclose : close.isAccess = false) :
    Carried σ False (argument g close) (argument w close) := by
  have hname (s t : List Lexeme) (hst : σ.Aligned s t)
      (hs : (atKind .identifier s && kindAhead 1 s == .colon) = true) :
      Carries σ False (node .nameColon (seq [bump, bump])) (node .nameColon (seq [bump, bump])) s t := by
    obtain ⟨hidentifier, hcolon⟩ := Bool.and_eq_true_iff.mp hs
    have hkind : kindAhead 0 s = .identifier := beq_iff_eq.mp hidentifier
    refine .node (.bump_drop hσ.toOpens hst (hkind ▸ rfl) (ready_of_atKind hidentifier nofun)
      False.elim fun s' t' hst' hdrop _ => ?_)
    rw [Site.kindAhead_drop, ← hdrop] at hcolon
    exact (Carries.bump_kind hσ.toOpens hst' hcolon rfl).seq trivial
  have hvalue : Carried σ False
      (look fun s => if declaresVariable g close s then
        node .declarationExpression (seq [type g, bump]) else g.expression)
      (look fun s => if declaresVariable w close s then
        node .declarationExpression (seq [type w, bump]) else w.expression) := by
    refine fun s t hst => .look ?_
    rw [declaresVariable_aligned hσ h hclose hst]
    refine .ite (fun hdeclares => .node ?_) fun _ => h.expression s t hst
    refine (carried_readType hσ h s t hst).andThen fun ts us s' t' hok _ hst' => ?_
    have hidentifier : atKind .identifier s' = true := by
      simp only [declaresVariable, afterType?, hok] at hdeclares
      exact (Bool.and_eq_true_iff.mp hdeclares).1
    exact (Carries.bump_kind hσ.toOpens hst' hidentifier rfl).seq trivial
  refine .node (.seq ⟨.whenever (fun _ _ hst => hst.both hσ.toOpens rfl rfl) hname,
    fun s t hst => ?_, trivial⟩)
  refine .look ?_
  rw [atByReference_aligned hσ hst]
  refine .ite (fun hs => ?_) fun _ => h.expression s t hst
  refine (Carries.bump hσ.toOpens hst (opens_of_atByReference hs) False.elim).seq ⟨hvalue, trivial⟩

theorem carries_argument_site {close : TokenKind}
    (hwhole : σ.opener.token.kind.opensWhole = true) :
    Carries σ False (argument g close) (argument w close) σ.old σ.new := by
  have hname {s : List Lexeme} (hs : OperandAhead (σ.opener.token.kind.opensWhole = true) s) :
      (atKind .identifier s && kindAhead 1 s == .colon) = false := by
    rw [hs.secondIs hwhole .colon nofun nofun nofun, Bool.and_false]
  have hskip {s : List Lexeme} (hs : OperandAhead (σ.opener.token.kind.opensWhole = true) s) :
      whenever (fun s => atKind .identifier s && kindAhead 1 s == .colon)
        (node .nameColon (seq [bump, bump])) s = .ok ([], s) := by
    rw [whenever, look, hname hs]
    rfl
  refine .node (.skip_seq (hskip hσ.swap.old_ahead) (hskip hσ.swap.new_ahead) (.seq (.look ?_) trivial))
  rw [hσ.swap.old_ahead.atByReference, hσ.swap.new_ahead.atByReference]
  exact h.atExpression hwhole

theorem carried_argumentList : Carried σ False (argumentList g) (argumentList w) := by
  have hargument : Carried σ False (argument g .closeParen) (argument w .closeParen) :=
    carried_argument hσ h rfl
  refine .node (.expect_seq hσ.toOpens rfl nofun (fun hopener => ?_)
    ⟨carried_listUpTo hσ h rfl hargument (.arguments _) (.arguments _), trivial⟩)
  have hwhole : σ.opener.token.kind.opensWhole = true := by rw [hopener]; rfl
  exact (carries_listUpTo_site hσ h hargument (carries_argument_site hσ h hwhole) (.arguments _)
    (.arguments _)).seq trivial

theorem carries_bracketedArgumentList (hst : σ.Aligned s t) (hs : atKind .openBracket s = true) :
    Carries σ False (bracketedArgumentList g) (bracketedArgumentList w) s t :=
  .node ((Carries.bump_kind hσ.toOpens hst hs rfl).seq
    ⟨carried_listUpTo hσ h rfl (carried_argument hσ h rfl) (.arguments _) (.arguments _), trivial⟩)

/-! ## Primary expressions -/

theorem carries_lengths (hst : σ.Aligned s t) (hs : atKind .openBracket s = true) :
    Carries σ False (lengths g) (lengths w) s t := by
  have hpart (s t : List Lexeme) (hst : σ.Aligned s t) (hs : (!atKind .closeBracket s) = true) :
      Carries σ False
        (seq [look fun s => if atKind .comma s then bump else g.expression,
          look fun s => if atEnd s then fail "`]`" else empty])
        (seq [look fun s => if atKind .comma s then bump else w.expression,
          look fun s => if atEnd s then fail "`]`" else empty]) s t := by
    have hgoesOn : Carried σ False (look fun s => if atEnd s then fail "`]`" else empty)
        (look fun s => if atEnd s then fail "`]`" else empty) := by
      refine fun s t hst => .look ?_
      rw [hst.atEnd hσ.toOpens]
      exact .ite (fun _ => .fail) fun _ => Carried.empty s t hst
    refine Carries.seq (.look ?_) ⟨hgoesOn, trivial⟩
    rw [hst.atKind hσ.toOpens (by rfl)]
    exact .ite (fun hcomma => .bump_kind hσ.toOpens hst hcomma rfl) fun _ => h.expression s t hst
  have hparts := Carried.many hσ.toOpens (fun s t hst => by rw [hst.atKind hσ.toOpens (by rfl)])
    (fun _ => Repeats.lengths.reads h.reads) (fun _ => Repeats.lengths.reads h.reads') hpart
  refine .node ((Carries.bump_kind hσ.toOpens hst hs rfl).andThen fun _ _ s' t' _ _ hst' => ?_)
  refine (hparts s' t' hst').andThen fun _ _ s' t' hok _ hst' => ?_
  rcases Repeats.lengths.stops h.reads hok with hnil | hclose
  · exact absurd hnil (hst'.ne_nil hσ.toOpens).1
  · have hkind : atKind .closeBracket s' = true := by simpa using hclose
    exact (Carries.bump_kind hσ.toOpens hst' hkind rfl).seq trivial

theorem carried_creationElements : Carried σ False (whenever (atKind .openBrace) (elements g))
    (whenever (atKind .openBrace) (elements w)) :=
  .whenever (fun _ _ hst => hst.atKind hσ.toOpens rfl) fun s t hst _ => carried_elements hσ h s t hst

theorem carries_creation (hst : σ.Aligned s t) (hs : atKeyword .kwNew s = true) :
    Carries σ False (creation g) (creation w) s t := by
  refine (Carries.bump_kind hσ.toOpens hst hs rfl).extend fun new new' s t _ hst => .look ?_
  rw [hst.atKind hσ.toOpens (by rfl), hst.atKind hσ.toOpens (by rfl), hst.atKind hσ.toOpens (by rfl),
    atPredefinedType_aligned hσ.toOpens hst]
  refine .ite (fun _ => ?_) fun _ => .ite (fun _ => ?_) fun _ => .ite (fun hbracket => ?_) fun _ => ?_
  · exact .node (.keep_seq False.elim ((carried_argumentList hσ h s t hst).seq
      ⟨carried_creationElements hσ h, trivial⟩))
  · exact .node (.keep_seq False.elim ((carried_elements hσ h s t hst).seq trivial))
  · have hrank : Carries σ False (node .arrayRankSpecifier (seq [bump, expect .closeBracket "`]`"]))
        (node .arrayRankSpecifier (seq [bump, expect .closeBracket "`]`"])) s t :=
      .node ((Carries.bump_kind hσ.toOpens hst hbracket rfl).seq ⟨.expect hσ.toOpens rfl, trivial⟩)
    exact .node (.keep_seq False.elim (hrank.seq ⟨carried_elements hσ h, trivial⟩))
  have helement : Carries σ False (if atPredefinedType s then predefinedType else namedType g)
      (if atPredefinedType s then predefinedType else namedType w) s t :=
    .ite (carries_predefinedType hσ.toOpens hst) fun _ =>
      carried_namedType hσ.toOpens h.reads h.reads' (h.type hσ) s t hst
  refine helement.extend fun element element' s t _ hst => .look ?_
  rw [hst.atKind hσ.toOpens (by rfl)]
  refine .ite (fun _ => ?_) fun _ => ?_
  · have hlengths : Carried σ False (many (atKind .openBracket) (lengths g))
        (many (atKind .openBracket) (lengths w)) :=
      .many hσ.toOpens (fun _ _ hst => hst.atKind hσ.toOpens rfl)
        (fun _ => Repeats.lengthLists.reads h.reads) (fun _ => Repeats.lengthLists.reads h.reads')
        fun _ _ => carries_lengths hσ h
    have harray : Carries σ False
        (node .arrayType (seq [keep element, many (atKind .openBracket) (lengths g)]))
        (node .arrayType (seq [keep element', many (atKind .openBracket) (lengths w)])) s t :=
      .node (.keep_seq False.elim ((hlengths s t hst).seq trivial))
    exact .node (.keep_seq False.elim (harray.seq ⟨carried_creationElements hσ h, trivial⟩))
  · have harguments : Carried σ False (whenever (atKind .openParen) (argumentList g))
        (whenever (atKind .openParen) (argumentList w)) :=
      .whenever (fun _ _ hst => hst.atKind hσ.toOpens rfl) fun s t hst _ =>
        carried_argumentList hσ h s t hst
    exact .node (.keep_seq False.elim (.keep_seq False.elim ((harguments s t hst).seq
      ⟨carried_creationElements hσ h, trivial⟩)))

theorem carries_interpolation (hst : σ.Aligned s t) (hs : atKind .openBrace s = true) :
    Carries σ False (interpolation g) (interpolation w) s t := by
  have halignment : Carried σ False
      (whenever (atKind .comma) (node .interpolationAlignmentClause (seq [bump, g.expression])))
      (whenever (atKind .comma) (node .interpolationAlignmentClause (seq [bump, w.expression]))) :=
    .whenever (fun _ _ hst => hst.atKind hσ.toOpens rfl) fun s t hst hs =>
      .node ((Carries.bump_kind hσ.toOpens hst hs rfl).seq ⟨h.expression, trivial⟩)
  have hformat : Carried σ False
      (whenever (atKind .colon)
        (node .interpolationFormatClause (seq [bump, eat .interpolatedFormatText])))
      (whenever (atKind .colon)
        (node .interpolationFormatClause (seq [bump, eat .interpolatedFormatText]))) :=
    .whenever (fun _ _ hst => hst.atKind hσ.toOpens rfl) fun s t hst hs =>
      .node ((Carries.bump_kind hσ.toOpens hst hs rfl).seq ⟨.eat hσ.toOpens rfl, trivial⟩)
  exact .node ((Carries.bump_kind hσ.toOpens hst hs rfl).seq
    ⟨h.expression, halignment, hformat, .expect hσ.toOpens rfl, trivial⟩)

theorem carries_interpolatedString (hst : σ.Aligned s t)
    (hs : atKind .interpolatedStringStart s = true) :
    Carries σ False (interpolatedString g) (interpolatedString w) s t := by
  have hpart (s t : List Lexeme) (hst : σ.Aligned s t)
      (hs : (atKind .interpolatedStringText s || atKind .openBrace s) = true) :
      Carries σ False
        (look fun s =>
          if atKind .interpolatedStringText s then node .interpolatedStringText bump
          else interpolation g)
        (look fun s =>
          if atKind .interpolatedStringText s then node .interpolatedStringText bump
          else interpolation w) s t := by
    refine .look ?_
    rw [hst.atKind hσ.toOpens (by rfl)]
    refine .ite (fun htext => .node (.bump_kind hσ.toOpens hst htext rfl)) fun htext => ?_
    exact carries_interpolation hσ h hst (by simpa [htext] using hs)
  have hparts := Carried.many hσ.toOpens
    (fun s t hst => by rw [hst.atKind hσ.toOpens (by rfl), hst.atKind hσ.toOpens (by rfl)])
    (fun _ => Repeats.stringParts.reads h.reads) (fun _ => Repeats.stringParts.reads h.reads') hpart
  exact .node ((Carries.bump_kind hσ.toOpens hst hs rfl).seq ⟨hparts, .expect hσ.toOpens rfl, trivial⟩)

theorem carries_typeOperand (hst : σ.Aligned s t) (hs : (kindAhead 0 s).opens = false)
    (kind : NodeKind) : Carries σ False (typeOperand g kind) (typeOperand w kind) s t := by
  have hoperand : Carried σ False (seq [expect .openParen "`(`", type g, expect .closeParen "`)`"])
      (seq [expect .openParen "`(`", type w, expect .closeParen "`)`"]) := by
    refine .expect_seq hσ.toOpens rfl nofun (fun hopener => .of_fails ?_)
      ⟨carried_readType hσ h, .expect hσ.toOpens rfl, trivial⟩
    exact hσ.swap.old_ahead.type_seq_fails (by rw [hopener]; rfl) nofun nofun nofun
  exact .node ((Carries.bump hσ.toOpens hst hs False.elim).andThen fun _ _ s' t' _ _ => hoperand s' t')

theorem carried_primary : Carried σ False (primary g) (primary w) := by
  intro s t hst
  rcases hst.kind hσ.toOpens with hkind | ⟨haccess, -⟩
  · refine .look ?_
    rw [hkind]
    have hbump {k : TokenKind} (hs : kindAhead 0 s = k) (hk : k.opens = false) (kind : NodeKind) :
        Carries σ False (node kind bump) (node kind bump) s t :=
      .node (.bump hσ.toOpens hst (hs ▸ hk) False.elim)
    split
    case h_4 hs => exact carries_interpolatedString hσ h hst (beq_iff_eq.mpr hs)
    case h_6 hs =>
      refine .node (.open_seq hσ.toOpens hst (ready_of_kind hs nofun) False.elim
        (fun hopener _ => ?_) fun s' t' hst' _ _ =>
          (h.expression s' t' hst').seq ⟨.expect hσ.toOpens rfl, trivial⟩)
      have hwhole := opensWhole_of_atKind (σ := σ) (k := .openParen)
        (hopener ▸ beq_iff_eq.mpr hs) rfl
      exact (h.atExpression hwhole).seq ⟨.expect hσ.toOpens rfl, trivial⟩
    case h_11 hs => exact carries_creation hσ h hst (beq_iff_eq.mpr hs)
    case h_13 hs =>
      rw [hst.secondIs hσ.toOpens (hs ▸ rfl) (by rfl)]
      exact .ite (fun _ => carries_typeOperand hσ h hst (hs ▸ rfl) _) fun _ => hbump hs rfl _
    case h_14 hs => exact carries_typeOperand hσ h hst (hs ▸ rfl) _
    case h_15 hs =>
      exact .node ((Carries.bump hσ.toOpens hst (hs ▸ rfl) False.elim).seq ⟨h.expression, trivial⟩)
    case h_16 k _ _ _ _ _ _ _ _ _ hs =>
      refine .ite (fun hpredefined => ?_) fun _ => .fail
      exact carries_predefinedType hσ.toOpens hst (by rw [atPredefinedType, hs]; exact hpredefined)
    case h_17 hs => exact .fail
    all_goals rename_i hs; exact hbump hs rfl _
  · refine .of_fails fun ts rest hok => ?_
    obtain ⟨v, hv, hword⟩ := TokenKind.isAccess_iff.mp haccess
    rw [primary, look, hv] at hok
    cases v <;> first | cases hok | cases hword

theorem carriedSuffix_afterOperand : CarriedSuffix σ False (postfixSuffix g) (postfixSuffix w) := by
  intro s t hst
  rcases hst.kind hσ.toOpens with hkind | ⟨hs, ht⟩
  · have hbump {k : TokenKind} (hs : kindAhead 0 s = k) (hk : k.opens = false) :
        Carries σ False bump bump s t := .bump hσ.toOpens hst (hs ▸ hk) False.elim
    have hname : Carried σ False (node .identifierName (expect .identifier "member name"))
        (node .identifierName (expect .identifier "member name")) :=
      Carried.node (.expect hσ.toOpens rfl)
    unfold postfixSuffix
    dsimp only
    rw [hkind]
    split
    case h_1 hs => exact .inr ⟨_, _, _, rfl, rfl, (hbump hs rfl).seq ⟨hname, trivial⟩⟩
    case h_2 hs => exact .inr ⟨_, _, _, rfl, rfl, (hbump hs rfl).seq ⟨hname, trivial⟩⟩
    case h_3 => exact .inr ⟨_, _, _, rfl, rfl, carried_argumentList hσ h s t hst⟩
    case h_4 hs =>
      exact .inr ⟨_, _, _, rfl, rfl, carries_bracketedArgumentList hσ h hst (beq_iff_eq.mpr hs)⟩
    case h_8 => exact .inl ⟨rfl, rfl⟩
    all_goals rename_i hs; exact .inr ⟨_, _, _, rfl, rfl, hbump hs rfl⟩
  · have hnone {g : Inner} {s : List Lexeme} (hs : (kindAhead 0 s).isAccess = true) :
        postfixSuffix g s = none := by
      obtain ⟨v, hv, -⟩ := TokenKind.isAccess_iff.mp hs
      rw [postfixSuffix, hv]
    exact .inl ⟨hnone hs, hnone ht⟩

/-! ## The operand of the site -/

omit hσ in
/-- In the new text, the path is the first argument. -/
theorem readsTo_firstArgument {path s : List Lexeme} (hpath : Path path) (hs : AtArgumentEnd s) :
    ReadsTo (argument w .closeParen) (path ++ s) s :=
  readsTo_argument (congrArg Inner.expression h.whole).symm hpath hs .closeParen

omit hσ in
theorem readsTo_argumentList {path s : List Lexeme} {l r : Lexeme} (hpath : Path path)
    (hl : l.token.kind = .openParen) (hr : r.token.kind = .closeParen) :
    ReadsTo (argumentList w) (l :: (path ++ r :: s)) s := by
  have hend : AtArgumentEnd (r :: s) := .inl hr
  have hitems : ReadsTo (separated (argument w .closeParen)) (path ++ r :: s) (r :: s) :=
    (readsTo_firstArgument h hpath hend).separated_one
      (beq_eq_false_iff_ne.mpr (by rw [show kindAhead 0 (r :: s) = .closeParen from hr]; nofun))
  have hopen : (!atKind .closeParen (path ++ r :: s)) = true := by rw [hpath.atKind _ (by rfl)]; rfl
  exact .node (.seq_cons (.expect hl nofun) (.seq_cons
    (.seq_cons (.whenever_true hopen hitems) (.seq_cons (.expect hr nofun) .seq_nil)) .seq_nil))

/-- A call without arguments gets one. -/
theorem carries_call {path b b' : List Lexeme} {l l' : Lexeme} (hpath : Path path)
    (hl : l.token.kind = .openParen) (hl' : l'.token.kind = .openParen)
    (hb : kindAhead 0 b = .closeParen) (hsame : Same b b') :
    Carries σ False (argumentList g) (argumentList w) (l :: b) (l' :: (path ++ b')) := by
  have hst : σ.Aligned b b' := .behind hsame
  have hclose : atKind .closeParen b = true := beq_iff_eq.mpr hb
  have hclose' : atKind .closeParen b' = true := (hst.atKind hσ.toOpens rfl).trans hclose
  have hkind' : kindAhead 0 b' = .closeParen := beq_iff_eq.mp hclose'
  have hnone : (!atKind .closeParen b) = false := by rw [hclose]; rfl
  have hopen : (!atKind .closeParen (path ++ b')) = true := by rw [hpath.atKind _ (by rfl)]; rfl
  have hitems : ReadsTo (separated (argument w .closeParen)) (path ++ b') b' :=
    (readsTo_firstArgument h hpath (.inl hkind')).separated_one
      (beq_eq_false_iff_ne.mpr (by rw [hkind']; nofun))
  have hexpect : Carried σ False (expect .closeParen "`)`") (expect .closeParen "`)`") :=
    .expect hσ.toOpens rfl
  have hlist : Carries σ False (listUpTo .closeParen "`)`" (argument g .closeParen))
      (listUpTo .closeParen "`)`" (argument w .closeParen)) b (path ++ b') :=
    .seq_readsTo (.whenever_false hnone) (.whenever_true hopen hitems)
      ((hexpect b b' hst).seq trivial)
  exact .node (.seq_readsTo (.expect hl nofun) (.expect hl' nofun) (hlist.seq trivial))

/-- A call with arguments gets one more, in front of them. -/
theorem carries_callMore {path b b' : List Lexeme} {l l' c : Lexeme} (hpath : Path path)
    (hl : l.token.kind = .openParen) (hl' : l'.token.kind = .openParen)
    (hb : kindAhead 0 b ≠ .closeParen) (hc : c.token.kind = .comma) (hsame : Same b b') :
    Carries σ False (argumentList g) (argumentList w) (l :: b) (l' :: (path ++ c :: b')) := by
  have hst : σ.Aligned b b' := .behind hsame
  have hopen : (!atKind .closeParen b) = true := by
    rw [atKind, beq_eq_false_iff_ne.mpr hb]
    rfl
  have hopen' : (!atKind .closeParen (path ++ c :: b')) = true := by rw [hpath.atKind _ (by rfl)]; rfl
  have hargument : Carried σ False (argument g .closeParen) (argument w .closeParen) :=
    carried_argument hσ h rfl
  have hitems : Carries σ False (separated (argument g .closeParen)) (separated (argument w .closeParen))
      b (path ++ c :: b') :=
    .separated_more hσ.toOpens h.reads h.reads' (.arguments _) (.arguments _) hargument
      (beq_iff_eq.mpr hc) (readsTo_firstArgument h hpath (.inr hc)) hst
  have hlist : Carries σ False (listUpTo .closeParen "`)`" (argument g .closeParen))
      (listUpTo .closeParen "`)`" (argument w .closeParen)) b (path ++ c :: b') :=
    Carries.seq (.whenever_true hopen hopen' hitems) ⟨.expect hσ.toOpens rfl, trivial⟩
  exact .node (.seq_readsTo (.expect hl (by decide)) (.expect hl' (by decide)) (hlist.seq trivial))

/-- The operand of a site, and what stands behind it. -/
theorem carries_operand {whole bracket : Prop} {old new : List Lexeme}
    (hswap : Swap whole bracket old new) :
    Carries σ False (chain (primary g) (postfixSuffix g)) (chain (primary w) (postfixSuffix w)) old
      new := by
  have hopen {g : Inner} {l : Lexeme} {s : List Lexeme} (hl : l.token.kind = .openParen) :
      postfixSuffix g (l :: s) = some (.invocationExpression, argumentList g) := by
    have hkind : kindAhead 0 (l :: s) = .openParen := hl
    rw [postfixSuffix, hkind]
  have hmore {s t : List Lexeme} {left left' : List Tree} {n m : Nat} (hst : σ.Aligned s t)
      (hn : s.length ≤ n) (hm : t.length ≤ m) :
      Carries σ False (chainUpTo (postfixSuffix g) n left) (chainUpTo (postfixSuffix w) m left') s t :=
    .chainUpTo hσ.toOpens h.reads h.reads' (carriedSuffix_afterOperand hσ h) .primary .primary hst
      False.elim hn hm
  have hcall {s t : List Lexeme} {l l' : Lexeme} {left left' : List Tree} {n m : Nat}
      (hl : l.token.kind = .openParen) (hl' : l'.token.kind = .openParen)
      (harguments : Carries σ False (argumentList g) (argumentList w) (l :: s) (l' :: t))
      (hn : (l :: s).length ≤ n) (hm : (l' :: t).length ≤ m) :
      Carries σ False (chainUpTo (postfixSuffix g) n left) (chainUpTo (postfixSuffix w) m left')
        (l :: s) (l' :: t) := by
    rw [List.length_cons] at hn hm
    obtain ⟨n, rfl⟩ : ∃ k, n = k + 1 := ⟨n - 1, by omega⟩
    obtain ⟨m, rfl⟩ : ∃ k, m = k + 1 := ⟨m - 1, by omega⟩
    exact .chainUpTo_succ h.reads h.reads' .primary .primary (hopen hl) (hopen hl') harguments
      False.elim hn hm fun _ _ _ _ _ => hmore
  cases hswap with
  | @operand path name path' b b' l r hpath hname hpath' hl hr _ _ hb =>
    obtain ⟨left, n, hn, hold⟩ := chain_path (g := g) hpath b
    obtain ⟨left', m, hm, hnew⟩ := chain_path (g := w) hname (l :: (path' ++ r :: b'))
    rw [List.length_cons, List.length_append, List.length_cons] at hm
    obtain ⟨m, rfl⟩ : ∃ k, m = k + 1 := ⟨m - 1, by omega⟩
    obtain ⟨left'', hround⟩ :=
      (readsTo_argumentList h hpath' hl hr).chainUpTo_succ (hopen hl) m left'
    exact .of_eq hold (hnew.trans hround) (hmore (.behind hb) hn (by omega))
  | call hpath hname hpath' hl hl' hb hsame =>
    obtain ⟨left, n, hn, hold⟩ := chain_path (g := g) hpath _
    obtain ⟨left', m, hm, hnew⟩ := chain_path (g := w) hname _
    exact .of_eq hold hnew (hcall hl hl' (carries_call hσ h hpath' hl hl' hb hsame) hn hm)
  | callMore hpath hname hpath' hl hl' hb hc hsame =>
    obtain ⟨left, n, hn, hold⟩ := chain_path (g := g) hpath _
    obtain ⟨left', m, hm, hnew⟩ := chain_path (g := w) hname _
    exact .of_eq hold hnew (hcall hl hl' (carries_callMore hσ h hpath' hl hl' hb hc hsame) hn hm)

/-! ## Operators -/

omit h in
/-- The lexeme behind the parenthesis can start the operand of a cast. -/
theorem startsOperand_aligned {known : Bool} (hst : σ.Aligned s t) :
    (atKind .closeParen t && (known || match kindAhead 1 t with
      | .identifier | .numericLiteral | .stringLiteral | .openParen => true
      | .keyword .kwThis | .keyword .kwNew => true
      | _ => false)) =
    (atKind .closeParen s && (known || match kindAhead 1 s with
      | .identifier | .numericLiteral | .stringLiteral | .openParen => true
      | .keyword .kwThis | .keyword .kwNew => true
      | _ => false)) := by
  rw [hst.atKind hσ.toOpens (by rfl)]
  by_cases hclose : atKind .closeParen s = true
  · have hkind : kindAhead 0 s = .closeParen := beq_iff_eq.mp hclose
    rcases hst.second hσ.toOpens (hkind ▸ rfl) with hsecond | ⟨hs, ht⟩
    · rw [hsecond]
    · obtain ⟨v, hv, hv'⟩ := TokenKind.isAccess_iff.mp hs
      obtain ⟨x, hx, hx'⟩ := TokenKind.isAccess_iff.mp ht
      rw [hv, hx]
      cases v <;> first | (cases hv'; done) | (cases x <;> first | rfl | cases hx')
  · rw [Bool.not_eq_true] at hclose
    rw [hclose, Bool.false_and, Bool.false_and]

/-- Behind the opener no cast stands, so that the look ahead for one gives the same answer. -/
theorem looksLikeCast_aligned (hst : σ.Aligned s t) (hs : kindAhead 0 s = .openParen) :
    looksLikeCast w t = looksLikeCast g s ∧
      (s = σ.opener :: σ.old → looksLikeCast g s = false) := by
  have hsite {g : Inner} {s' : List Lexeme} (hwhole : σ.opener.token.kind.opensWhole = true)
      (hs' : OperandAhead (σ.opener.token.kind.opensWhole = true) s') :
      looksLikeCast g (σ.opener :: s') = false := by
    unfold looksLikeCast
    exact hs'.testAfterType hwhole fun rest hrest => by
      rw [hrest.atKind (k := .closeParen) nofun nofun nofun, Bool.false_and]
  have hopener (hopener : s = σ.opener :: σ.old) : σ.opener.token.kind.opensWhole = true :=
    opensWhole_of_atKind (hopener ▸ beq_iff_eq.mpr hs) rfl
  refine ⟨?_, fun hs => hs ▸ hsite (hopener hs) hσ.swap.old_ahead⟩
  cases hst.step hσ.toOpens with
  | next _ _ _ hrest =>
    unfold looksLikeCast
    simp only [List.drop_one, List.tail_cons]
    rw [atPredefinedType_aligned hσ.toOpens hrest]
    exact testAfterType_aligned hσ.toOpens h.readType h.readType'
      (fun _ _ => startsOperand_aligned hσ) hrest
  | opener =>
    rw [hsite (hopener rfl) hσ.swap.old_ahead, hsite (hopener rfl) hσ.swap.new_ahead]
  | ends hend _ => exact absurd (hs.symm.trans hend) nofun

theorem carried_unary : Carried σ False (unary g) (unary w) := by
  intro s t hst
  have hoperand : Carries σ False (chain (primary g) (postfixSuffix g))
      (chain (primary w) (postfixSuffix w)) s t :=
    .chain hσ.toOpens h.reads h.reads' (carried_primary hσ h s t hst) (carriedSuffix_afterOperand hσ h)
      .primary .primary
  rcases hst.kind hσ.toOpens with hkind | ⟨hs, ht⟩
  · have hprefix {k : TokenKind} (hs : kindAhead 0 s = k) (hk : k ≠ .endOfFile) :
        Carries σ False (node .prefixUnaryExpression (seq [bump, g.unary]))
          (node .prefixUnaryExpression (seq [bump, w.unary])) s t :=
      .node (.open_seq hσ.toOpens hst (ready_of_kind hs hk) False.elim
        (fun _ _ => h.atUnary.seq trivial) fun s' t' hst' _ _ => (h.unary s' t' hst').seq trivial)
    refine .look ?_
    rw [hkind]
    split
    case h_7 hs =>
      obtain ⟨hsame, hsite⟩ := looksLikeCast_aligned hσ h hst hs
      rw [hsame]
      refine .ite (fun hcast => .node ?_) fun _ => hoperand
      refine .open_seq hσ.toOpens hst (ready_of_kind hs nofun) False.elim (fun hopener _ => ?_)
        fun s' t' hst' _ _ => (carried_readType hσ h s' t' hst').seq
          ⟨.expect hσ.toOpens rfl, h.unary, trivial⟩
      rw [hsite hopener] at hcast
      cases hcast
    case h_8 => exact hoperand
    all_goals rename_i hs; exact hprefix hs nofun
  · have hother {g : Inner} {s : List Lexeme} (hs : (kindAhead 0 s).isAccess = true) :
        unary g s = chain (primary g) (postfixSuffix g) s := by
      obtain ⟨v, hv, -⟩ := TokenKind.isAccess_iff.mp hs
      rw [unary, look, hv]
    exact .of_eq (hother hs) (hother ht) hoperand

/-- The operand of a site behind its opener. -/
theorem carries_unary_site : Carries σ False (unary g) (unary w) σ.old σ.new := by
  have hpath {g : Inner} {s : List Lexeme} {whole : Prop} (hs : OperandAhead whole s) :
      unary g s = chain (primary g) (postfixSuffix g) s := by
    obtain ⟨path, rest, rfl, hpath, -⟩ := hs
    exact unary_path hpath rest
  exact .of_eq (hpath hσ.swap.old_ahead) (hpath hσ.swap.new_ahead) (carries_operand hσ h hσ.swap)

theorem carried_whenClause : Carried σ False (whenClause g) (whenClause w) :=
  .whenever (fun _ _ hst => hst.atWord hσ.toOpens _) fun _ _ hst hs => .node
    ((Carries.bump_kind hσ.toOpens hst (Bool.and_eq_true_iff.mp hs).1 rfl).seq ⟨h.expression, trivial⟩)

theorem carriedSuffix_switch : CarriedSuffix σ False (switchSuffix g) (switchSuffix w) := by
  have hvalue : Carried σ False (seq [expect .arrow "`=>`", g.expression])
      (seq [expect .arrow "`=>`", w.expression]) :=
    .expect_seq hσ.toOpens rfl nofun
      (fun hopener => (h.atExpression (by rw [hopener]; rfl)).seq trivial) ⟨h.expression, trivial⟩
  have harm : Carried σ False
      (node .switchExpressionArm (seq [g.pattern, whenClause g, expect .arrow "`=>`", g.expression]))
      (node .switchExpressionArm
        (seq [w.pattern, whenClause w, expect .arrow "`=>`", w.expression])) :=
    .node fun s t hst => (h.pattern s t hst).andThen fun _ _ s t _ _ hst =>
      (carried_whenClause hσ h s t hst).andThen fun _ _ s t _ _ => hvalue s t
  have harms := Carried.items hσ.toOpens h.reads h.reads'
    (fun s t hst => hst.beforeKind hσ.toOpens rfl) Lists.switchArms Lists.switchArms harm
  refine .ite (fun s t hst => hst.both hσ.toOpens rfl rfl) fun s t hst hs => ?_
  obtain ⟨hswitch, hopen⟩ := Bool.and_eq_true_iff.mp hs
  have hkind : kindAhead 0 s = .keyword .kwSwitch := beq_iff_eq.mp hswitch
  refine .bump_drop hσ.toOpens hst (hkind ▸ rfl) (ready_of_atKeyword hswitch) False.elim
    fun s' t' hst' hdrop _ => ?_
  rw [Site.kindAhead_drop, ← hdrop] at hopen
  exact (Carries.bump_kind hσ.toOpens hst' hopen rfl).seq ⟨harms, .expect hσ.toOpens rfl, trivial⟩

omit hσ h in
theorem operatorSuffix?_carries {least : Nat} {kind : NodeKind} {sign : Production}
    (hst : ∀ p, Carries σ False (seq [sign, g.binary p]) (seq [sign, w.binary p]) s t) :
    operatorSuffix? g least kind sign = none ∧ operatorSuffix? w least kind sign = none ∨
      ∃ kind' tail tail', operatorSuffix? g least kind sign = some (kind', tail) ∧
        operatorSuffix? w least kind sign = some (kind', tail') ∧ Carries σ False tail tail' s t := by
  unfold operatorSuffix?
  cases kind.precedence? with
  | none => exact .inl ⟨rfl, rfl⟩
  | some p =>
    by_cases hleast : p < least
    · exact .inl ⟨if_pos hleast, if_pos hleast⟩
    · exact .inr ⟨kind, _, _, if_neg hleast, if_neg hleast, hst (p + 1)⟩

theorem carriedSuffix_binary (least : Nat) :
    CarriedSuffix σ False (binarySuffix g least) (binarySuffix w least) := by
  intro s t hst
  have hoperator : NodeKind.ofOperator? (kindAhead 0 t) = NodeKind.ofOperator? (kindAhead 0 s) :=
    hst.test hσ.toOpens fun _ _ => TokenKind.eq_of_isAccess fun _ _ => rfl
  have htest {k : Keyword} (hs : atKeyword k s = true) {kind : NodeKind} {p q : Production}
      (hpq : Carried σ False p q) (hk : (TokenKind.keyword k).opens = false) :
      (if relational < least then none else some (kind, seq [bump, p])) = none ∧
        (if relational < least then none else some (kind, seq [bump, q])) = none ∨
      ∃ kind' tail tail',
        (if relational < least then none else some (kind, seq [bump, p])) = some (kind', tail) ∧
        (if relational < least then none else some (kind, seq [bump, q])) = some (kind', tail') ∧
        Carries σ False tail tail' s t := by
    by_cases hleast : relational < least
    · exact .inl ⟨if_pos hleast, if_pos hleast⟩
    · have hkind : kindAhead 0 s = .keyword k := beq_iff_eq.mp hs
      exact .inr ⟨kind, _, _, if_neg hleast, if_neg hleast,
        (Carries.bump hσ.toOpens hst (hkind ▸ hk) False.elim).seq ⟨hpq, trivial⟩⟩
  unfold binarySuffix
  rw [hst.atKeyword hσ.toOpens (by rfl), hst.atKeyword hσ.toOpens (by rfl),
    hst.atRightShift hσ.toOpens, hoperator]
  by_cases has : atKeyword .kwAs s = true
  · simp only [if_pos has]
    exact htest has (carried_readType hσ h) rfl
  by_cases his : atKeyword .kwIs s = true
  · simp only [if_neg has, if_pos his]
    exact htest his h.pattern rfl
  by_cases hshift : atRightShift s = true
  · simp only [if_neg has, if_neg his, if_pos hshift]
    obtain ⟨hgt, hgt'⟩ := kindAhead_of_atRightShift hshift
    have hsign : Carries σ False (seq [bump, bump]) (seq [bump, bump]) s t := by
      refine .bump_drop hσ.toOpens hst (hgt ▸ rfl) (ready_of_kind hgt nofun) False.elim
        fun s' t' hst' hdrop _ => ?_
      rw [← hdrop] at hgt'
      exact (Carries.bump_kind hσ.toOpens hst' (beq_iff_eq.mpr hgt') rfl).seq trivial
    exact operatorSuffix?_carries fun p => hsign.seq ⟨h.binary p, trivial⟩
  simp only [if_neg has, if_neg his, if_neg hshift]
  cases hop : NodeKind.ofOperator? (kindAhead 0 s) with
  | none => exact .inl ⟨rfl, rfl⟩
  | some kind =>
    refine operatorSuffix?_carries fun p => ?_
    exact .open_seq hσ.toOpens hst (kindAhead_of_operator hop) False.elim
      (fun _ _ => (h.atBinary p).seq trivial) fun s' t' hst' _ _ => (h.binary p s' t' hst').seq trivial

theorem carries_operators (least : Nat) (hst : Carries σ False (unary g) (unary w) s t) :
    Carries σ False (binary g least) (binary w least) s t :=
  .chain hσ.toOpens h.reads h.reads'
    (.chain hσ.toOpens h.reads h.reads' hst (carriedSuffix_switch hσ h) .switch .switch)
    (carriedSuffix_binary hσ h least) (.binary least) (.binary least)

theorem carried_binary (least : Nat) : Carried σ False (binary g least) (binary w least) :=
  fun s t hst => carries_operators hσ h least (carried_unary hσ h s t hst)

theorem carries_binary_site (least : Nat) :
    Carries σ False (binary g least) (binary w least) σ.old σ.new :=
  carries_operators hσ h least (carries_unary_site hσ h)

theorem carries_coalesceTail (hst : Carries σ False (binary g 1) (binary w 1) s t) :
    Carries σ False (coalesce g) (coalesce w) s t := by
  refine hst.extend_suffixed (.ite (fun _ _ hst => hst.atKind hσ.toOpens rfl) fun s t hst hs => ?_)
  exact .open_seq hσ.toOpens hst (ready_of_atKind hs nofun) False.elim
    (fun _ _ => h.atCoalesce.seq trivial) fun s' t' hst' _ _ => (h.coalesce s' t' hst').seq trivial

theorem carried_coalesce : Carried σ False (coalesce g) (coalesce w) :=
  fun s t hst => carries_coalesceTail hσ h (carried_binary hσ h 1 s t hst)

theorem carries_coalesce_site : Carries σ False (coalesce g) (coalesce w) σ.old σ.new :=
  carries_coalesceTail hσ h (carries_binary_site hσ h 1)

theorem carries_conditional (hst : Carries σ False (coalesce g) (coalesce w) s t) :
    Carries σ False (conditional g) (conditional w) s t := by
  refine hst.extend_suffixed (.ite (fun _ _ hst => hst.atKind hσ.toOpens rfl) fun s t hst hs => ?_)
  exact (Carries.bump_kind hσ.toOpens hst hs rfl).seq
    ⟨h.expression, .expect hσ.toOpens rfl, h.expression, trivial⟩

/-! ## Lambdas and assignments -/

theorem carried_lambdaBody : Carried σ False (lambdaBody g) (lambdaBody w) := by
  refine fun s t hst => .look ?_
  rw [hst.atKind hσ.toOpens (by rfl)]
  exact .ite (fun _ => h.block s t hst) fun _ => h.expression s t hst

theorem carries_lambdaBody_site (hwhole : σ.opener.token.kind.opensWhole = true) :
    Carries σ False (lambdaBody g) (lambdaBody w) σ.old σ.new := by
  refine .look ?_
  rw [hσ.swap.old_ahead.atKind (by rfl), hσ.swap.new_ahead.atKind (by rfl)]
  exact h.atExpression hwhole

theorem carriedSuffix_assignment : CarriedSuffix σ False
    (fun s => match NodeKind.ofOperator? (kindAhead 0 s) with
      | some kind => if kind.isAssignment then some (kind, seq [bump, g.expression]) else none
      | none => none)
    (fun s => match NodeKind.ofOperator? (kindAhead 0 s) with
      | some kind => if kind.isAssignment then some (kind, seq [bump, w.expression]) else none
      | none => none) := by
  intro s t hst
  have hoperator : NodeKind.ofOperator? (kindAhead 0 t) = NodeKind.ofOperator? (kindAhead 0 s) :=
    hst.test hσ.toOpens fun _ _ => TokenKind.eq_of_isAccess fun _ _ => rfl
  dsimp only
  rw [hoperator]
  cases hop : NodeKind.ofOperator? (kindAhead 0 s) with
  | none => exact .inl ⟨rfl, rfl⟩
  | some kind =>
    by_cases hassignment : kind.isAssignment = true
    · refine .inr ⟨kind, _, _, if_pos hassignment, if_pos hassignment, ?_⟩
      refine .open_seq hσ.toOpens hst (kindAhead_of_operator hop) False.elim (fun hopener _ => ?_)
        fun s' t' hst' _ _ => (h.expression s' t' hst').seq trivial
      rw [hopener] at hop
      exact (h.atExpression (TokenKind.opensWhole_of_assignment hop hassignment)).seq trivial
    · exact .inl ⟨if_neg hassignment, if_neg hassignment⟩

theorem carries_assignment (hst : Carries σ False (coalesce g) (coalesce w) s t) :
    Carries σ False
      (extend (conditional g) (suffixed fun s => match NodeKind.ofOperator? (kindAhead 0 s) with
        | some kind => if kind.isAssignment then some (kind, seq [bump, g.expression]) else none
        | none => none))
      (extend (conditional w) (suffixed fun s => match NodeKind.ofOperator? (kindAhead 0 s) with
        | some kind => if kind.isAssignment then some (kind, seq [bump, w.expression]) else none
        | none => none)) s t :=
  (carries_conditional hσ h hst).extend_suffixed (carriedSuffix_assignment hσ h)

theorem carried_expression : Carried σ False (expression g) (expression w) := by
  have hparenthesized : Carried σ False (seq [expect .arrow "`=>`", lambdaBody g])
      (seq [expect .arrow "`=>`", lambdaBody w]) :=
    .expect_seq hσ.toOpens rfl nofun
      (fun hopener => (carries_lambdaBody_site hσ h (by rw [hopener]; rfl)).seq trivial)
      ⟨carried_lambdaBody hσ h, trivial⟩
  intro s t hst
  have hlambda : (atKind .openParen t && closesBeforeArrow 0 t) =
      (atKind .openParen s && closesBeforeArrow 0 s) := by
    rw [hst.atKind hσ.toOpens (by rfl)]
    by_cases hopen : atKind .openParen s = true
    · rw [closesBeforeArrow_aligned hσ hst (.inr (beq_iff_eq.mp hopen))]
    · rw [Bool.not_eq_true] at hopen
      rw [hopen, Bool.false_and, Bool.false_and]
  refine .look ?_
  rw [hst.both hσ.toOpens (by rfl) (by rfl), hlambda]
  refine .ite (fun hs => .node ?_) fun _ => .ite (fun hs => .node ?_) fun _ =>
    carries_assignment hσ h (carried_coalesce hσ h s t hst)
  · obtain ⟨hname, harrow⟩ := Bool.and_eq_true_iff.mp hs
    have hparameter : Carries σ False (node .parameter bump) (node .parameter bump) s t :=
      .node (.bump_kind hσ.toOpens hst hname rfl)
    refine hparameter.andThen fun ts us s' t' hok _ hst' => ?_
    have harrow' : atKind .arrow s' = true := by
      obtain ⟨_, hbump, -⟩ := node_eq_ok hok
      rw [(bump_eq (readable_of_atKind hname nofun) hbump).1, atKind, ← Site.kindAhead_drop]
      exact harrow
    refine .open_seq hσ.toOpens hst' (ready_of_atKind harrow' nofun) False.elim (fun hopener _ => ?_)
      fun s t hst _ _ => (carried_lambdaBody hσ h s t hst).seq trivial
    exact (carries_lambdaBody_site hσ h (opensWhole_of_atKind (hopener ▸ harrow') rfl)).seq trivial
  · exact (carries_lambdaParameterList hσ h hst (Bool.and_eq_true_iff.mp hs).1).andThen
      fun _ _ s t _ _ => hparenthesized s t

theorem carries_expression_site (hwhole : σ.opener.token.kind.opensWhole = true) :
    Carries σ False (expression g) (expression w) σ.old σ.new := by
  have hlambda {s : List Lexeme} (hs : OperandAhead (σ.opener.token.kind.opensWhole = true) s) :
      (atKind .identifier s && kindAhead 1 s == .arrow) = false ∧
        (atKind .openParen s && closesBeforeArrow 0 s) = false := by
    rw [hs.secondIs hwhole .arrow nofun nofun nofun, Bool.and_false, hs.atKind (by rfl), Bool.false_and]
    exact ⟨rfl, rfl⟩
  obtain ⟨hold, hold'⟩ := hlambda hσ.swap.old_ahead
  obtain ⟨hnew, hnew'⟩ := hlambda hσ.swap.new_ahead
  refine .look ?_
  rw [hold, hold', hnew, hnew']
  exact carries_assignment hσ h (carries_coalesce_site hσ h)

/-! ## Patterns -/

theorem looksLikeDesignation_aligned (hst : σ.Aligned s t) :
    looksLikeDesignation w t = looksLikeDesignation g s := by
  refine testAfterType_aligned hσ.toOpens h.readType h.readType' (fun s t hst => ?_) hst
  rw [atPatternWord, atPatternWord, hst.atKind hσ.toOpens (by rfl), hst.atWord hσ.toOpens,
    hst.atWord hσ.toOpens, hst.atWord hσ.toOpens]

/-- The type is the same in both texts, trivia included. -/
theorem looksLikeCompositeType_aligned (hst : σ.Aligned s t) :
    looksLikeCompositeType w t = looksLikeCompositeType g s := by
  unfold looksLikeCompositeType
  rw [type_eq_whole h.readType, type_eq_whole h.readType']
  obtain ⟨ts, s', t', hs, ht, -⟩ | ⟨e, f, hs, ht⟩ := wholeType_aligned hσ.toOpens hst
  · rw [hs, ht]
  · rw [hs, ht]

theorem carried_negatedPattern : Carried σ False (negatedPattern g) (negatedPattern w) := by
  intro s t hst
  refine .look ?_
  rw [hst.atWord hσ.toOpens, hst.atKind hσ.toOpens (by rfl), hst.atKind hσ.toOpens (by rfl),
    hst.atKind hσ.toOpens (by rfl), hst.atKind hσ.toOpens (by rfl),
    looksLikeDesignation_aligned hσ h hst,
    looksLikeCompositeType_aligned hσ h hst]
  refine .ite (fun hnot => .node ?_) fun _ => .ite (fun hsign => .node ?_) fun _ =>
    .ite (fun hdesignation => .node ?_) fun _ => .ite
      (fun _ => .node (carried_readType hσ h s t hst)) fun _ =>
      .node (carried_binary hσ h shift s t hst)
  · exact (Carries.bump_kind hσ.toOpens hst (Bool.and_eq_true_iff.mp hnot).1 rfl).seq
      ⟨h.negatedPattern, trivial⟩
  · have hready : Ready s := by
      intro hend
      simp [atKind, hend] at hsign
    exact .open_seq hσ.toOpens hst hready False.elim
      (fun _ _ => (carries_binary_site hσ h shift).seq trivial)
      fun s' t' hst' _ _ => (carried_binary hσ h shift s' t' hst').seq trivial
  · refine (carried_readType hσ h s t hst).andThen fun ts us s' t' hok _ hst' => ?_
    simp only [looksLikeDesignation, afterType?, hok] at hdesignation
    exact (Carries.bump_kind hσ.toOpens hst' (Bool.and_eq_true_iff.mp hdesignation).1 rfl).seq trivial

theorem carried_pattern : Carried σ False (pattern g) (pattern w) := by
  have hconjunction : Carried σ False
      (chain (negatedPattern g) fun s =>
        if atWord "and" s then some (.andPattern, seq [bump, negatedPattern g]) else none)
      (chain (negatedPattern w) fun s =>
        if atWord "and" s then some (.andPattern, seq [bump, negatedPattern w]) else none) := by
    refine fun s t hst => .chain hσ.toOpens h.reads h.reads' (carried_negatedPattern hσ h s t hst)
      (.ite (fun _ _ hst => hst.atWord hσ.toOpens _) fun s t hst hs => ?_) .conjunction .conjunction
    exact (Carries.bump_kind hσ.toOpens hst (Bool.and_eq_true_iff.mp hs).1 rfl).seq
      ⟨carried_negatedPattern hσ h, trivial⟩
  refine fun s t hst => .chain hσ.toOpens h.reads h.reads' (hconjunction s t hst)
    (.ite (fun _ _ hst => hst.atWord hσ.toOpens _) fun s t hst hs => ?_) .disjunction .disjunction
  exact (Carries.bump_kind hσ.toOpens hst (Bool.and_eq_true_iff.mp hs).1 rfl).seq ⟨hconjunction, trivial⟩

end

end Grammar

end SharpLint
