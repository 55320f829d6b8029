import Mathlib.Data.List.Infix
import SharpLint.Grammar.Expression
import SharpLint.Proofs.Grammar.Makes

/-!
# Productions that read alike

Two lists of lexemes are alike when they have the same kinds and texts, when the same pairs of `>`
touch, and when the names that a pattern may start with have the same brackets in their trivia
(`Alike`). Two productions agree at two such places when both fail, or both make the same trees up
to trivia and leave lexemes that are alike (`AgreeAt`). Whatever looks at kinds and texts only is the
same at both places, and whatever is put together from productions that agree agrees.

The brackets matter to one look ahead: `looksLikeCompositeType` searches the printed text of a type,
trivia included. In front of a pattern stands a word, an opening brace, or the comma between two arms of a
`switch` expression; commas count from the first such expression on (`fromArms`).
-/

namespace SharpLint

open SharpLint.Tree Grammar

/-! ## Trees without trivia -/

/-- The token without its trivia. -/
def Token.withoutTrivia (t : Token) : Token := .bare t.kind t.text

theorem Token.kind_eq_of_withoutTrivia {a b : Token} (h : a.withoutTrivia = b.withoutTrivia) :
    a.kind = b.kind :=
  (Token.mk.inj h).1

mutual

/-- The tree with all trivia removed. -/
def Tree.withoutTrivia : Tree → Tree
  | .token t => .token t.withoutTrivia
  | .node k cs => .node k (Tree.withoutTriviaOf cs)

/-- The trees with all trivia removed. -/
def Tree.withoutTriviaOf : List Tree → List Tree
  | [] => []
  | c :: cs => c.withoutTrivia :: Tree.withoutTriviaOf cs

end

@[simp] theorem Tree.withoutTriviaOf_append (ts us : List Tree) :
    withoutTriviaOf (ts ++ us) = withoutTriviaOf ts ++ withoutTriviaOf us := by
  induction ts with
  | nil => rfl
  | cons t ts ih => simp [withoutTriviaOf, ih]

/-! ## Lexemes -/

/-- Kinds of tokens that a type without brackets is made of. -/
def TokenKind.isInName : TokenKind → Bool
  | .identifier | .dot | .question => true
  | .keyword k => k.isPredefinedType
  | _ => false

namespace Lexeme

/-- The character opens type arguments or ranks. -/
def isBracket (c : Char) : Bool := c == '<' || c == '['

/-- A bracket stands in the token or in its trivia. -/
def hasBracket (l : Lexeme) : Bool := l.token.fullChars.any isBracket

/-- For each lexeme of the name that comes next, whether a bracket stands in it or in its trivia. -/
def nameBrackets (s : List Lexeme) : List Bool :=
  (s.takeWhile (·.token.kind.isInName)).map hasBracket

/-- The arms of a `switch` expression start behind the next two lexemes. -/
def startsArms (s : List Lexeme) : Bool := atKeyword .kwSwitch s && kindAhead 1 s == .openBrace

/-- The lexemes behind the word or brace that comes next, if a pattern starts there. -/
def behindPatternStart (s : List Lexeme) : List Lexeme :=
  if atKeyword .kwIs s || atKeyword .kwCase s || atWord "not" s || atWord "and" s || atWord "or" s
  then s.drop 1
  else if startsArms s then s.drop 2
  else []

/-- The brackets of the name that a pattern may start with, where one starts next. -/
def patternBrackets (s : List Lexeme) : List Bool := nameBrackets (behindPatternStart s)

/-- The brackets of the name behind a comma. Among the arms of a `switch` expression, a pattern may
start with that name. -/
def commaBrackets (s : List Lexeme) : List Bool :=
  if atKind .comma s then nameBrackets (s.drop 1) else []

/-- The lexemes from the first `switch` expression on. -/
def fromArms : List Lexeme → List Lexeme
  | [] => []
  | l :: s => if startsArms (l :: s) then l :: s else fromArms s

end Lexeme

/-- The names behind commas have the same brackets. -/
def SameCommas (s t : List Lexeme) : Prop :=
  s.tails.map Lexeme.commaBrackets = t.tails.map Lexeme.commaBrackets

instance (s t : List Lexeme) : Decidable (SameCommas s t) := inferInstanceAs (Decidable (_ = _))

theorem SameCommas.drop {s t : List Lexeme} (h : SameCommas s t) (n : Nat) :
    SameCommas (s.drop n) (t.drop n) := by
  induction n generalizing s t with
  | zero => exact h
  | succ n ih =>
    have hlength : s.length = t.length := by
      have htails := congrArg List.length h
      rw [List.length_map, List.length_map, List.length_tails, List.length_tails] at htails
      exact Nat.succ_inj.mp htails
    cases s with
    | nil =>
      obtain rfl : t = [] := List.length_eq_zero_iff.mp hlength.symm
      exact h
    | cons a s =>
      cases t with
      | nil => cases hlength
      | cons b t => exact ih (List.cons.inj h).2

/-- Two lists of lexemes that differ in trivia and offsets only, with the same `>` touching and the
same brackets where a pattern can start. Commas count from the first `switch` expression on, and
everywhere where such an expression was met before. -/
structure Alike (s t : List Lexeme) : Prop where
  tokens : s.map (·.token.withoutTrivia) = t.map (·.token.withoutTrivia)
  shifts : s.tails.map atRightShift = t.tails.map atRightShift
  brackets : s.tails.map Lexeme.patternBrackets = t.tails.map Lexeme.patternBrackets
  commas : SameCommas s t ∨ SameCommas (Lexeme.fromArms s) (Lexeme.fromArms t)
  ends : EndsOnce s
  spelled : ∀ l ∈ s, l.token.kind = .lt ∨ l.token.kind = .openBracket →
    l.token.text.toList.any Lexeme.isBracket = true

namespace Alike

variable {s t : List Lexeme}

theorem nil : Alike [] [] := ⟨rfl, rfl, rfl, .inl rfl, trivial, nofun⟩

theorem kindAhead_congr (h : s.map (·.token.withoutTrivia) = t.map (·.token.withoutTrivia))
    (n : Nat) : SharpLint.kindAhead n s = SharpLint.kindAhead n t := by
  have hn := congrArg (fun ts : List Token => ts[n]?.map Token.kind) h
  simp only [List.getElem?_map, Option.map_map] at hn
  exact congrArg (Option.getD · _) hn

theorem startsArms_congr (h : s.map (·.token.withoutTrivia) = t.map (·.token.withoutTrivia)) :
    Lexeme.startsArms s = Lexeme.startsArms t := by
  simp only [Lexeme.startsArms, SharpLint.atKeyword, SharpLint.atKind, kindAhead_congr h]

theorem length_eq (h : Alike s t) : s.length = t.length := by
  simpa using congrArg List.length h.tokens

theorem eq_nil_or_cons (h : Alike s t) : s = [] ∧ t = [] ∨ ∃ a s' b t', s = a :: s' ∧
    t = b :: t' ∧ a.token.withoutTrivia = b.token.withoutTrivia ∧ Alike s' t' := by
  have hlength := h.length_eq
  cases s with
  | nil => exact .inl ⟨rfl, List.length_eq_zero_iff.mp hlength.symm⟩
  | cons a s =>
    cases t with
    | nil => cases hlength
    | cons b t =>
      obtain ⟨htokens, hshifts, hbrackets, hcommas, hends, hspelled⟩ := h
      have harms : Lexeme.startsArms (b :: t) = Lexeme.startsArms (a :: s) :=
        startsArms_congr htokens.symm
      simp only [List.map_cons, List.tails, List.cons.injEq] at htokens hshifts hbrackets
      have hbehind (h : SameCommas (a :: s) (b :: t)) : SameCommas s t :=
        (List.cons.inj h).2
      refine .inr ⟨a, s, b, t, rfl, rfl, htokens.1, htokens.2, hshifts.2, hbrackets.2, ?_, hends.2,
        fun l hl => hspelled l (List.mem_cons_of_mem a hl)⟩
      rcases hcommas with hcommas | hcommas
      · exact .inl (hbehind hcommas)
      · rw [Lexeme.fromArms, Lexeme.fromArms, harms] at hcommas
        by_cases hs : Lexeme.startsArms (a :: s) = true
        · rw [if_pos hs, if_pos hs] at hcommas
          exact .inl (hbehind hcommas)
        · rw [if_neg hs, if_neg hs] at hcommas
          exact .inr hcommas

/-- That the text ends once and that brackets are spelled can be read off kinds and texts. -/
theorem symm (h : Alike s t) : Alike t s := by
  induction s generalizing t with
  | nil =>
    obtain rfl : t = [] := List.length_eq_zero_iff.mp h.length_eq.symm
    exact .nil
  | cons a s ih =>
    obtain ⟨hnil, -⟩ | ⟨a', s', b, t, hcons, rfl, hab, htail⟩ := h.eq_nil_or_cons
    · cases hnil
    obtain ⟨rfl, rfl⟩ := List.cons.inj hcons
    have hflip := ih htail
    have htext : a.token.text = b.token.text := (Token.mk.inj hab).2.1
    refine ⟨h.tokens.symm, h.shifts.symm, h.brackets.symm, h.commas.imp Eq.symm Eq.symm,
      ⟨fun hend => ?_, hflip.ends⟩, ?_⟩
    · obtain ⟨hs, hempty⟩ := h.ends.1 ((Token.kind_eq_of_withoutTrivia hab).trans hend)
      refine ⟨List.length_eq_zero_iff.mp ?_, htext ▸ hempty⟩
      rw [← htail.length_eq, hs, List.length_nil]
    · rw [List.forall_mem_cons]
      refine ⟨fun hk => ?_, hflip.spelled⟩
      rw [← htext]
      exact h.spelled a List.mem_cons_self (Token.kind_eq_of_withoutTrivia hab ▸ hk)

theorem drop (h : Alike s t) (n : Nat) : Alike (s.drop n) (t.drop n) := by
  induction n generalizing s t with
  | zero => exact h
  | succ n ih =>
    obtain ⟨rfl, rfl⟩ | ⟨a, s', b, t', rfl, rfl, -, htail⟩ := h.eq_nil_or_cons
    · exact .nil
    · exact ih htail

theorem getElem?_token (h : Alike s t) (n : Nat) :
    s[n]?.map (·.token.withoutTrivia) = t[n]?.map (·.token.withoutTrivia) := by
  rw [← List.getElem?_map, ← List.getElem?_map, h.tokens]

/-! ## Looking ahead -/

theorem kindAhead (h : Alike s t) (n : Nat) : kindAhead n t = kindAhead n s :=
  (kindAhead_congr h.tokens n).symm

theorem textAhead (h : Alike s t) (n : Nat) :
    t[n]?.map (·.token.text) = s[n]?.map (·.token.text) := by
  have hn := congrArg (Option.map Token.text) (h.getElem?_token n)
  rw [Option.map_map, Option.map_map] at hn
  exact hn.symm

theorem atKind (h : Alike s t) (k : TokenKind) : atKind k t = atKind k s := by
  rw [SharpLint.atKind, SharpLint.atKind, h.kindAhead]

theorem atKeyword (h : Alike s t) (k : Keyword) : atKeyword k t = atKeyword k s := h.atKind _

theorem atEnd (h : Alike s t) : atEnd t = atEnd s := h.atKind _

theorem before (h : Alike s t) (k : TokenKind) : before k t = before k s := by
  rw [SharpLint.before, SharpLint.before, h.atKind, h.atEnd]

theorem any_head? (h : Alike s t) (n : Nat) (word : String) :
    (t.drop n).head?.any (·.token.text == word) = (s.drop n).head?.any (·.token.text == word) := by
  have htext := congrArg (Option.any (· == word)) (h.textAhead n)
  simpa only [Option.any_map, List.head?_drop, Function.comp_def] using htext

theorem atWord (h : Alike s t) (word : String) : atWord word t = atWord word s := by
  rw [SharpLint.atWord, SharpLint.atWord, h.atKind]
  exact congrArg (_ && ·) (h.any_head? 0 word)

theorem atRightShift (h : Alike s t) : Grammar.atRightShift t = Grammar.atRightShift s := by
  have hshifts := congrArg List.head? h.shifts
  obtain ⟨rfl, rfl⟩ | ⟨a, s', b, t', rfl, rfl, -, -⟩ := h.eq_nil_or_cons
  · rfl
  · simpa [List.tails] using hshifts.symm

theorem startsArms (h : Alike s t) : Lexeme.startsArms t = Lexeme.startsArms s :=
  startsArms_congr h.tokens.symm

/-- Where a `switch` expression is met, commas count. -/
theorem sameCommas (h : Alike s t) (hs : Lexeme.startsArms s = true) : SameCommas s t := by
  have hcommas := h.commas
  have ht := h.startsArms.trans hs
  obtain ⟨rfl, rfl⟩ | ⟨a, s', b, t', rfl, rfl, -, -⟩ := h.eq_nil_or_cons
  · rfl
  · rw [Lexeme.fromArms, Lexeme.fromArms, if_pos hs, if_pos ht] at hcommas
    exact hcommas.elim id id

/-- Where a pattern can start, the name that comes next has the same brackets. -/
theorem nameBrackets (h : Alike s t) :
    Lexeme.nameBrackets (Lexeme.behindPatternStart s) =
      Lexeme.nameBrackets (Lexeme.behindPatternStart t) := by
  have hbrackets := congrArg List.head? h.brackets
  obtain ⟨rfl, rfl⟩ | ⟨a, s', b, t', rfl, rfl, -, -⟩ := h.eq_nil_or_cons
  · rfl
  · simpa [List.tails, Lexeme.patternBrackets] using hbrackets

end Alike

/-! ## Agreement -/

namespace Production

/-- Both productions fail, or make the same trees up to trivia and leave lexemes that are alike. -/
inductive AgreeAt (p q : Production) (s t : List Lexeme) : Prop
  | ok {ts us : List Tree} {s' t' : List Lexeme} : p s = .ok (ts, s') → q t = .ok (us, t') →
      withoutTriviaOf ts = withoutTriviaOf us → Alike s' t' → AgreeAt p q s t
  | error {e f : FaultAt} : p s = .error e → q t = .error f → AgreeAt p q s t

/-- The production agrees with itself on lexemes that are alike. -/
def Blind (p : Production) : Prop := ∀ s t, Alike s t → AgreeAt p p s t

variable {p p' q q' : Production} {s t : List Lexeme}

/-! ### Single steps -/

theorem AgreeAt.keep {ts us : List Tree} (hts : withoutTriviaOf ts = withoutTriviaOf us)
    (h : Alike s t) : AgreeAt (keep ts) (keep us) s t :=
  .ok rfl rfl hts h

theorem Blind.empty : Blind empty := fun _ _ h => .keep rfl h

theorem Blind.fail {what : String} : Blind (fail what) := fun _ _ _ => .error rfl rfl

theorem Blind.bump : Blind bump := by
  intro s t h
  obtain ⟨rfl, rfl⟩ | ⟨a, s', b, t', rfl, rfl, hab, htail⟩ := h.eq_nil_or_cons
  · exact .ok rfl rfl rfl .nil
  · have hkind := Token.kind_eq_of_withoutTrivia hab
    have htrees : withoutTriviaOf [.token a.token] = withoutTriviaOf [.token b.token] := by
      simp [withoutTriviaOf, Tree.withoutTrivia, hab]
    by_cases hend : a.token.kind = .endOfFile
    · exact .ok (by rw [Production.bump, if_pos hend])
        (by rw [Production.bump, if_pos (hkind ▸ hend)]) htrees h
    · exact .ok (by rw [Production.bump, if_neg hend])
        (by rw [Production.bump, if_neg (hkind ▸ hend)]) htrees htail

/-! ### Combining -/

section
variable {ts us : List Tree} {mid rest : List Lexeme} {e : FaultAt}

theorem andThen_ok (hp : p s = .ok (ts, mid)) (hq : q mid = .ok (us, rest)) :
    andThen p q s = .ok (ts ++ us, rest) := by
  simp only [Production.andThen, hp, hq]

theorem andThen_error (hp : p s = .error e) : andThen p q s = .error e := by
  simp only [Production.andThen, hp]

theorem andThen_error_right (hp : p s = .ok (ts, mid)) (hq : q mid = .error e) :
    andThen p q s = .error e := by
  simp only [Production.andThen, hp, hq]

theorem extend_ok {next : List Tree → Production} (hp : p s = .ok (ts, mid)) :
    extend p next s = next ts mid := by
  simp only [Production.extend, hp]

theorem extend_error {next : List Tree → Production} (hp : p s = .error e) :
    extend p next s = .error e := by
  simp only [Production.extend, hp]

theorem node_ok {kind : NodeKind} (hp : p s = .ok (ts, rest)) :
    node kind p s = .ok ([.node kind ts], rest) := by
  simp only [Production.node, hp]

theorem node_error {kind : NodeKind} (hp : p s = .error e) : node kind p s = .error e := by
  simp only [Production.node, hp]

end

theorem AgreeAt.look {choose choose' : List Lexeme → Production}
    (h : AgreeAt (choose s) (choose' t) s t) : AgreeAt (look choose) (look choose') s t :=
  h.recOn (fun hp hq => .ok hp hq) fun hp hq => .error hp hq

/-- A choice that looks at kinds and texts only is the same at both places. -/
theorem Blind.look {choose : List Lexeme → Production}
    (hchoose : ∀ s t, Alike s t → choose t = choose s)
    (h : ∀ s t, Alike s t → AgreeAt (choose s) (choose s) s t) : Blind (look choose) := by
  intro s t hst
  refine .look ?_
  rw [hchoose s t hst]
  exact h s t hst

theorem AgreeAt.ite {c : Bool} (hp : c = true → AgreeAt p p' s t)
    (hq : c = false → AgreeAt q q' s t) :
    AgreeAt (if c then p else q) (if c then p' else q') s t := by
  cases c with
  | true => exact hp rfl
  | false => exact hq rfl

theorem AgreeAt.extend {next next' : List Tree → Production} (hp : AgreeAt p p' s t)
    (hnext : ∀ ts us s' t', withoutTriviaOf ts = withoutTriviaOf us → Alike s' t' →
      AgreeAt (next ts) (next' us) s' t') :
    AgreeAt (extend p next) (extend p' next') s t := by
  obtain ⟨hp, hp', htrees, hrest⟩ | ⟨hp, hp'⟩ := hp
  · obtain ⟨hq, hq', htrees', hrest'⟩ | ⟨hq, hq'⟩ := hnext _ _ _ _ htrees hrest
    · exact .ok ((extend_ok hp).trans hq) ((extend_ok hp').trans hq') htrees' hrest'
    · exact .error ((extend_ok hp).trans hq) ((extend_ok hp').trans hq')
  · exact .error (extend_error hp) (extend_error hp')

/-- The second production runs where the first one ended. -/
theorem AgreeAt.andThen (hp : AgreeAt p p' s t)
    (hq : ∀ ts us s' t', p s = .ok (ts, s') → p' t = .ok (us, t') → Alike s' t' →
      AgreeAt q q' s' t') :
    AgreeAt (andThen p q) (andThen p' q') s t := by
  obtain ⟨hp, hp', htrees, hrest⟩ | ⟨hp, hp'⟩ := hp
  · obtain ⟨hq, hq', htrees', hrest'⟩ | ⟨hq, hq'⟩ := hq _ _ _ _ hp hp' hrest
    · refine .ok (andThen_ok hp hq) (andThen_ok hp' hq') ?_ hrest'
      rw [withoutTriviaOf_append, withoutTriviaOf_append, htrees, htrees']
    · exact .error (andThen_error_right hp hq) (andThen_error_right hp' hq')
  · exact .error (andThen_error hp) (andThen_error hp')

theorem AgreeAt.node {kind : NodeKind} (h : AgreeAt p p' s t) :
    AgreeAt (node kind p) (node kind p') s t := by
  obtain ⟨hp, hp', htrees, hrest⟩ | ⟨hp, hp'⟩ := h
  · refine .ok (node_ok hp) (node_ok hp') ?_ hrest
    simp only [withoutTriviaOf, Tree.withoutTrivia, htrees]
  · exact .error (node_error hp) (node_error hp')

theorem Blind.extend {next : List Tree → Production} (hp : Blind p)
    (hnext : ∀ ts us s t, withoutTriviaOf ts = withoutTriviaOf us → Alike s t →
      AgreeAt (next ts) (next us) s t) : Blind (extend p next) :=
  fun s t h => (hp s t h).extend hnext

theorem Blind.node {kind : NodeKind} (h : Blind p) : Blind (node kind p) :=
  fun s t hst => (h s t hst).node

theorem Blind.andThen (hp : Blind p) (hq : Blind q) : Blind (andThen p q) :=
  fun s t h => (hp s t h).andThen fun _ _ s' t' _ _ => hq s' t'

theorem Blind.seq {ps : List Production} (h : ps.Forall Blind) : Blind (seq ps) := by
  induction ps with
  | nil => exact .empty
  | cons p ps ih =>
    rw [List.forall_cons] at h
    exact h.1.andThen (ih h.2)

/-- Where the first productions agree and those that follow are blind. -/
theorem AgreeAt.seq {ps : List Production} (hp : AgreeAt p p' s t)
    (h : ps.Forall Blind) :
    AgreeAt (Production.seq (p :: ps)) (Production.seq (p' :: ps)) s t :=
  hp.andThen fun _ _ s' t' _ _ => Blind.seq h s' t'

theorem AgreeAt.keep_seq {ts us : List Tree} (hts : withoutTriviaOf ts = withoutTriviaOf us)
    {ps qs : List Production} (h : AgreeAt (Production.seq ps) (Production.seq qs) s t)
    (hst : Alike s t) :
    AgreeAt (Production.seq (Production.keep ts :: ps)) (Production.seq (Production.keep us :: qs))
      s t := by
  refine (AgreeAt.keep hts hst).andThen fun _ _ _ _ hok hok' _ => ?_
  obtain ⟨-, rfl⟩ := keep_eq_ok hok
  obtain ⟨-, rfl⟩ := keep_eq_ok hok'
  exact h

/-- What follows a `bump` starts one lexeme further. -/
theorem AgreeAt.bump_seq {ps qs : List Production} (hst : Alike s t) (hs : Readable s)
    (h : Alike (s.drop 1) (t.drop 1) →
      AgreeAt (Production.seq ps) (Production.seq qs) (s.drop 1) (t.drop 1)) :
    AgreeAt (Production.seq (Production.bump :: ps)) (Production.seq (Production.bump :: qs))
      s t := by
  refine (Blind.bump s t hst).andThen fun _ _ _ _ hok hok' _ => ?_
  have ht : Readable t := by
    intro l hl hend
    obtain ⟨rfl, rfl⟩ | ⟨a, s', b, t', rfl, rfl, hab, -⟩ := hst.eq_nil_or_cons
    · cases hl
    · obtain rfl : b = l := by simpa using hl
      exact hs a rfl ((Token.kind_eq_of_withoutTrivia hab).trans hend)
  rw [(bump_eq hs hok).1, (bump_eq ht hok').1]
  exact h (hst.drop 1)

theorem AgreeAt.whenever {test : List Lexeme → Bool} (htest : test t = test s) (hst : Alike s t)
    (h : test s = true → AgreeAt p p' s t) :
    AgreeAt (whenever test p) (whenever test p') s t := by
  refine .look ?_
  rw [htest]
  exact .ite h fun _ => Blind.empty s t hst

theorem Blind.whenever {test : List Lexeme → Bool} (htest : ∀ s t, Alike s t → test t = test s)
    (h : Blind p) : Blind (whenever test p) :=
  fun s t hst => .whenever (htest s t hst) hst fun _ => h s t hst

theorem Blind.expect {kind : TokenKind} {what : String} : Blind (expect kind what) :=
  .look (fun _ _ h => by rw [h.atKind]) fun s t h =>
    .ite (fun _ => Blind.bump s t h) fun _ => Blind.fail s t h

theorem Blind.eat {kind : TokenKind} : Blind (eat kind) := .whenever (fun _ _ h => h.atKind kind) .bump

/-! ### Loops -/

theorem Blind.many {test : List Lexeme → Bool} (htest : ∀ s t, Alike s t → test t = test s)
    (h : ∀ s t, Alike s t → test s = true → AgreeAt p p s t) : Blind (many test p) := by
  have hrounds (n : Nat) : Blind (manyUpTo test p n) := by
    induction n with
    | zero => exact .empty
    | succ n ih =>
      intro s t hst
      refine .whenever (htest s t hst) hst fun hs => ?_
      exact (h s t hst hs).andThen fun _ _ s' t' _ _ => ih s' t'
  intro s t hst
  refine .look ?_
  rw [← hst.length_eq]
  exact hrounds s.length s t hst

theorem Blind.separated (h : Blind p) : Blind (separated p) := by
  have hnext : Blind (Production.seq [Production.bump, p]) := .seq ⟨.bump, h⟩
  exact .seq ⟨h, .many (fun _ _ h => h.atKind .comma) fun s t hst _ => hnext s t hst⟩

/-- Items that agree only at some places, the first one and those behind the comma of another. -/
theorem AgreeAt.items {test : List Lexeme → Bool} {C : List Lexeme → List Lexeme → Prop}
    (htest : ∀ s t, Alike s t → test t = test s)
    (hcomma : ∀ s t ts us s' t', Alike s t → C s t → p s = .ok (ts, s') → p t = .ok (us, t') →
      Alike s' t' → atKind .comma s' = true → C (s'.drop 1) (t'.drop 1))
    (h : ∀ s t, Alike s t → C s t → AgreeAt p p s t) (hst : Alike s t) (hC : C s t) :
    AgreeAt (items test p) (items test p) s t := by
  have hrounds (n : Nat) : ∀ s t, Alike s t → C s t →
      AgreeAt (itemsUpTo test p n) (itemsUpTo test p n) s t := by
    induction n with
    | zero => exact fun s t hst _ => Blind.empty s t hst
    | succ n ih =>
      intro s t hst hC
      refine .whenever (htest s t hst) hst fun _ => ?_
      refine (h s t hst hC).andThen fun ts us s' t' hok hok' hrest => ?_
      refine AgreeAt.seq ?_ trivial
      refine .whenever (hrest.atKind _) hrest fun hs => ?_
      refine .bump_seq hrest (readable_of_atKind hs nofun) fun hrest' => ?_
      exact (ih _ _ hrest' (hcomma s t ts us s' t' hst hC hok hok' hrest hs)).seq trivial
  refine .look ?_
  rw [← hst.length_eq]
  exact hrounds s.length s t hst hC

theorem Blind.items {test : List Lexeme → Bool} (htest : ∀ s t, Alike s t → test t = test s)
    (h : Blind p) : Blind (items test p) :=
  fun _ _ hst => .items (C := fun _ _ => True) htest (fun _ _ _ _ _ _ _ _ _ _ _ _ => trivial)
    (fun s t hst _ => h s t hst) hst trivial

/-! ### What follows an operand -/

/-- At places that are alike nothing follows an operand, or the same kind of tail does. -/
def AlikeSuffix (suffix : Suffix) : Prop :=
  ∀ s t, Alike s t → suffix t = suffix s ∧
    ∀ kind tail, suffix s = some (kind, tail) → AgreeAt tail tail s t

theorem AlikeSuffix.ite {test : List Lexeme → Bool} {kind : NodeKind}
    (htest : ∀ s t, Alike s t → test t = test s)
    (h : ∀ s t, Alike s t → test s = true → AgreeAt p p s t) :
    AlikeSuffix fun s => if test s then some (kind, p) else none := by
  intro s t hst
  refine ⟨by dsimp only; rw [htest s t hst], fun kind' tail hsuffix => ?_⟩
  obtain ⟨hs, rfl, rfl⟩ := suffix_of_ite hsuffix
  exact h s t hst hs

theorem AlikeSuffix.node {suffix : Suffix} (hsuffix : AlikeSuffix suffix) {ts us : List Tree}
    (htrees : withoutTriviaOf ts = withoutTriviaOf us) (hst : Alike s t) {kind : NodeKind}
    {tail : Production} (htail : suffix s = some (kind, tail)) :
    AgreeAt (Production.node kind (Production.seq [Production.keep ts, tail]))
      (Production.node kind (Production.seq [Production.keep us, tail])) s t := by
  have hseq : AgreeAt (Production.seq [tail]) (Production.seq [tail]) s t :=
    ((hsuffix s t hst).2 kind tail htail).seq trivial
  exact .node (.keep_seq htrees hseq hst)

theorem AgreeAt.suffixed {suffix : Suffix} (hsuffix : AlikeSuffix suffix) {ts us : List Tree}
    (htrees : withoutTriviaOf ts = withoutTriviaOf us) (hst : Alike s t) :
    AgreeAt (suffixed suffix ts) (suffixed suffix us) s t := by
  refine .look ?_
  rw [(hsuffix s t hst).1]
  cases hs : suffix s with
  | none => exact .keep htrees hst
  | some found => exact hsuffix.node htrees hst hs

theorem Blind.suffixed {suffix : Suffix} (hp : Blind p) (hsuffix : AlikeSuffix suffix) :
    Blind (Production.extend p (suffixed suffix)) :=
  hp.extend fun _ _ _ _ htrees hst => .suffixed hsuffix htrees hst

theorem AgreeAt.chain {suffix : Suffix} (hp : AgreeAt p p s t) (hsuffix : AlikeSuffix suffix) :
    AgreeAt (chain p suffix) (chain p suffix) s t := by
  have hrounds (n : Nat) : ∀ ts us s t, withoutTriviaOf ts = withoutTriviaOf us → Alike s t →
      AgreeAt (chainUpTo suffix n ts) (chainUpTo suffix n us) s t := by
    induction n with
    | zero => exact fun _ _ _ _ htrees hst => .keep htrees hst
    | succ n ih =>
      intro ts us s t htrees hst
      refine .look ?_
      rw [(hsuffix s t hst).1]
      cases hs : suffix s with
      | none => exact .keep htrees hst
      | some found => exact (hsuffix.node htrees hst hs).extend ih
  refine hp.extend fun ts us s t htrees hst => .look ?_
  rw [← hst.length_eq]
  exact hrounds _ ts us s t htrees hst

theorem Blind.chain {suffix : Suffix} (hp : Blind p) (hsuffix : AlikeSuffix suffix) :
    Blind (chain p suffix) :=
  fun s t hst => (hp s t hst).chain hsuffix

end Production

end SharpLint
