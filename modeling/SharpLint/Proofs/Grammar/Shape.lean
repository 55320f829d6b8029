import SharpLint.Proofs.Grammar.Expression
import SharpLint.Proofs.Grammar.Makes
import SharpLint.Proofs.Tree.Shape

/-!
# Productions that build shaped trees

Every production makes shaped trees (`Plain`). Where a node of a form of its own is made, the labels
of its children are needed as well:

    Builds L p        the trees of p are shaped, and their labels are in L

Labels go through sequences (`Builds.seq`), and a node needs the shape of its kind
(`BuildsAt.node`).
-/

namespace SharpLint

open Production SharpLint.Tree

/-! ## Labels of what is built -/

/-- Shaped trees with labels in `L`. -/
def Labelled (L : List Label → Prop) (ts : List Tree) : Prop := ShapedOf ts ∧ L (ts.map label)

/-- One child with the given label. -/
def IsOnly (l : Label) (ls : List Label) : Prop := ls = [l]

/-- One expression. -/
def IsOperand (ls : List Label) : Prop := ∃ e : NodeKind, e.isExpression = true ∧ ls = [.node e]

/-- A name with or without dots. -/
def IsName (ls : List Label) : Prop := ls = [.node .identifierName] ∨ ls = [.node .qualifiedName]

/-- Labels of one sort, and behind them labels of another. -/
def Both (L M : List Label → Prop) (ls : List Label) : Prop := ∃ a b, ls = a ++ b ∧ L a ∧ M b

/-- Labels of the given sorts, one behind the other. -/
def Concat : List (List Label → Prop) → List Label → Prop
  | [] => fun ls => ls = []
  | L :: Ls => Both L (Concat Ls)

namespace Production

/-- The trees that `p` builds at `s` are shaped and have labels in `L`. -/
def BuildsAt (L : List Label → Prop) (p : Production) (s : List Lexeme) : Prop :=
  MakesAt (Labelled L) p s

/-- All trees that `p` builds are shaped and have labels in `L`. -/
def Builds (L : List Label → Prop) (p : Production) : Prop := ∀ s, BuildsAt L p s

/-- The trees that `p` builds at `s` are shaped. -/
def PlainAt (p : Production) (s : List Lexeme) : Prop := MakesAt ShapedOf p s

/-- All trees that `p` builds are shaped. -/
def Plain (p : Production) : Prop := ∀ s, PlainAt p s

variable {L M : List Label → Prop} {p q : Production} {s : List Lexeme} {kind : NodeKind}

theorem additive_shapedOf : Additive ShapedOf := ⟨trivial, fun h h' => shapedOf_append.mpr ⟨h, h'⟩⟩

theorem shapedOf_node {ts : List Tree} (h : ShapedOf ts) (hk : kind.isFree = true) :
    ShapedOf [.node kind ts] :=
  ⟨⟨shape_of_isFree hk _, h⟩, trivial⟩

/-! ### Plain productions -/

theorem BuildsAt.plain (h : BuildsAt L p s) : PlainAt p s := MakesAt.mono h fun _ hts => hts.1

theorem Builds.plain (h : Builds L p) : Plain p := fun s => (h s).plain

theorem BuildsAt.mono (h : BuildsAt L p s) (hLM : ∀ ls, L ls → M ls) : BuildsAt M p s :=
  MakesAt.mono h fun _ hts => ⟨hts.1, hLM _ hts.2⟩

theorem Builds.mono (h : Builds L p) (hLM : ∀ ls, L ls → M ls) : Builds M p :=
  fun s => (h s).mono hLM

theorem Plain.bump : Plain bump := fun _ => .bump (fun _ => trivial) fun _ _ => ⟨trivial, trivial⟩

theorem Plain.fail {what : String} : Plain (fail what) := Makes.fail

theorem Plain.empty : Plain empty := additive_shapedOf.empty

theorem Plain.expect {k : TokenKind} {what : String} : Plain (expect k what) := by
  intro s
  show MakesAt ShapedOf (if atKind k s then Production.bump else Production.fail what) s
  exact .ite (fun _ => Plain.bump s) fun _ => Plain.fail s

theorem PlainAt.free_node (h : PlainAt p s) (hk : kind.isFree = true) : PlainAt (node kind p) s :=
  MakesAt.node h fun _ hts => shapedOf_node hts hk

theorem Plain.free_node (h : Plain p) (hk : kind.isFree = true) : Plain (node kind p) :=
  fun s => (h s).free_node hk

theorem Plain.seq {ps : List Production} (h : ps.Forall Plain) : Plain (seq ps) :=
  additive_shapedOf.seq h

theorem PlainAt.seq {ps : List Production} (hp : PlainAt p s) (h : ps.Forall Plain) :
    PlainAt (Production.seq (p :: ps)) s :=
  additive_shapedOf.seqAt hp h

theorem PlainAt.keep_seq {held : List Tree} {ps : List Production} (hheld : ShapedOf held)
    (h : PlainAt (Production.seq ps) s) : PlainAt (Production.seq (keep held :: ps)) s :=
  MakesAt.keep_seq h fun _ hts => shapedOf_append.mpr ⟨hheld, hts⟩

theorem Plain.whenever {test : List Lexeme → Bool} (h : ∀ s, test s = true → PlainAt p s) :
    Plain (whenever test p) :=
  additive_shapedOf.whenever h

theorem Plain.eat {k : TokenKind} : Plain (eat k) := .whenever fun s _ => Plain.bump s

theorem Plain.many {test : List Lexeme → Bool} (h : ∀ s, test s = true → PlainAt p s) :
    Plain (many test p) :=
  additive_shapedOf.many h

theorem Plain.separated (h : Plain p) : Plain (separated p) :=
  additive_shapedOf.separated h fun s _ => Plain.bump s

theorem Plain.items {test : List Lexeme → Bool} (h : Plain p) : Plain (items test p) :=
  additive_shapedOf.items h fun s _ => Plain.bump s

theorem Plain.look {choose : List Lexeme → Production} (h : ∀ s, PlainAt (choose s) s) :
    Plain (look choose) :=
  h

/-! ### Labels of single steps and sequences -/

theorem BuildsAt.keep {held : List Tree} (h : Labelled L held) : BuildsAt L (keep held) s :=
  MakesAt.keep h

theorem BuildsAt.bump {k : TokenKind} (hs : kindAhead 0 s = k) (hk : k ≠ .endOfFile) :
    BuildsAt (IsOnly (.token k)) bump s :=
  .bump_kind hs hk fun t ht => ⟨⟨trivial, trivial⟩, by rw [← ht]; rfl⟩

theorem Builds.expect {k : TokenKind} {what : String} (hk : k ≠ .endOfFile) :
    Builds (IsOnly (.token k)) (expect k what) :=
  Makes.expect hk fun t ht => ⟨⟨trivial, trivial⟩, by rw [← ht]; rfl⟩

/-- A token of the kind is built, or nothing. -/
theorem Builds.eat {k : TokenKind} (hk : k ≠ .endOfFile) :
    Builds (fun ls => ls = [] ∨ ls = [.token k]) (eat k) := by
  intro s
  show BuildsAt _ (if atKind k s then Production.bump else Production.empty) s
  refine MakesAt.ite (fun hs => ?_) fun _ => MakesAt.keep ⟨trivial, .inl rfl⟩
  exact (BuildsAt.bump (beq_iff_eq.mp hs) hk).mono fun _ hls => .inr hls

/-- One lexeme makes one token, or nothing behind the last one. -/
theorem Builds.bump : Builds IsTokens bump := fun _ =>
  MakesAt.bump (fun _ => ⟨trivial, [], rfl⟩) fun l _ => ⟨⟨trivial, trivial⟩, [l.token.kind], rfl⟩

theorem Builds.words {test : List Lexeme → Bool}
    (h : ∀ s, test s = true → BuildsAt IsTokens p s) : Builds IsTokens (many test p) := by
  have hadditive : Additive (Labelled IsTokens) := by
    refine ⟨⟨trivial, [], rfl⟩, fun {ts us} hts hus => ?_⟩
    obtain ⟨hshaped, kinds, hkinds⟩ := hts
    obtain ⟨hshaped', others, hothers⟩ := hus
    refine ⟨shapedOf_append.mpr ⟨hshaped, hshaped'⟩, kinds ++ others, ?_⟩
    rw [List.map_append, hkinds, hothers, List.map_append]
  exact hadditive.many h

theorem Builds.fail {what : String} : Builds L (fail what) := Makes.fail

theorem BuildsAt.node (h : BuildsAt L p s) (hshape : ∀ ls, L ls → Shape kind ls) :
    BuildsAt (IsOnly (.node kind)) (node kind p) s :=
  MakesAt.node h fun _ hts => ⟨⟨⟨hshape _ hts.2, hts.1⟩, trivial⟩, rfl⟩

theorem Builds.node (h : Builds L p) (hshape : ∀ ls, L ls → Shape kind ls) :
    Builds (IsOnly (.node kind)) (node kind p) :=
  fun s => (h s).node hshape

theorem PlainAt.builds (h : PlainAt p s) : BuildsAt (fun _ => True) p s :=
  MakesAt.mono h fun _ hts => ⟨hts, trivial⟩

theorem Plain.builds (h : Plain p) : Builds (fun _ => True) p := fun s => (h s).builds

theorem PlainAt.free_builds (h : PlainAt p s) (hk : kind.isFree = true) :
    BuildsAt (IsOnly (.node kind)) (Production.node kind p) s :=
  h.builds.node fun ls _ => shape_of_isFree hk ls

theorem Plain.free_builds (h : Plain p) (hk : kind.isFree = true) :
    Builds (IsOnly (.node kind)) (Production.node kind p) :=
  fun s => (h s).free_builds hk

/-- The labels of a sequence are those of its parts, one behind the other. -/
theorem BuildsAt.andThen (hp : BuildsAt L p s)
    (hq : ∀ ts rest, p s = .ok (ts, rest) → BuildsAt M q rest) :
    BuildsAt (Both L M) (andThen p q) s := by
  refine MakesAt.andThen hp hq fun ts us hts hus => ⟨shapedOf_append.mpr ⟨hts.1, hus.1⟩, ?_⟩
  rw [List.map_append]
  exact ⟨_, _, rfl, hts.2, hus.2⟩

theorem Builds.cons {ps : List Production} (hp : Builds L p) (hps : Builds M (seq ps)) :
    Builds (Both L M) (seq (p :: ps)) :=
  fun s => (hp s).andThen fun _ rest _ => hps rest

theorem Builds.seq {ps : List Production} {Ls : List (List Label → Prop)}
    (h : List.Forall₂ Builds Ls ps) : Builds (Concat Ls) (seq ps) := by
  induction h with
  | nil => exact fun s => .keep ⟨trivial, rfl⟩
  | cons hp _ ih => exact hp.cons ih

theorem BuildsAt.seq {ps : List Production} {Ls : List (List Label → Prop)} (hp : BuildsAt L p s)
    (h : List.Forall₂ Builds Ls ps) : BuildsAt (Concat (L :: Ls)) (seq (p :: ps)) s :=
  hp.andThen fun _ rest _ => Builds.seq h rest

theorem BuildsAt.keep_seq {held : List Tree} {ps : List Production} (hheld : Labelled L held)
    (h : BuildsAt M (Production.seq ps) s) :
    BuildsAt (Both L M) (Production.seq (Production.keep held :: ps)) s := by
  refine (BuildsAt.keep hheld).andThen fun ts rest hok => ?_
  rwa [(keep_eq_ok hok).2]

/-- Behind a production that reads one lexeme, the next one is the second. -/
theorem BuildsAt.seq_second {ps : List Production} (hp : BuildsAt L p s)
    (hone : ∀ ts rest, p s = .ok (ts, rest) → rest = s.drop 1)
    (hps : BuildsAt M (Production.seq ps) (s.drop 1)) :
    BuildsAt (Both L M) (Production.seq (p :: ps)) s := by
  refine hp.andThen fun ts rest hok => ?_
  rwa [hone ts rest hok]

theorem kindAhead_drop {n : Nat} : kindAhead 0 (s.drop n) = kindAhead n s := by
  rw [kindAhead, kindAhead, List.getElem?_drop, Nat.add_zero]

theorem BuildsAt.look {choose : List Lexeme → Production} (h : BuildsAt L (choose s) s) :
    BuildsAt L (look choose) s :=
  h

theorem BuildsAt.ite {c : Bool} (hp : c = true → BuildsAt L p s) (hq : c = false → BuildsAt L q s) :
    BuildsAt L (if c then p else q) s :=
  MakesAt.ite hp hq

theorem BuildsAt.extend {next : List Tree → Production} (hp : BuildsAt L p s)
    (hnext : ∀ ts rest, Labelled L ts → BuildsAt M (next ts) rest) :
    BuildsAt M (extend p next) s :=
  MakesAt.extend hp hnext

/-! ### Nodes with a token -/

theorem solid_of_token {k : TokenKind} {rest : List Label} (hk : k ≠ .endOfFile) :
    ∃ l ∈ Label.token k :: rest, l.isSolid = true :=
  ⟨_, List.mem_cons_self, bne_iff_ne.mpr hk⟩

/-- A node with one token of a known kind. -/
theorem BuildsAt.bump_node {k : TokenKind} (hs : kindAhead 0 s = k) (hk : k ≠ .endOfFile)
    (hform : Form kind [.token k]) :
    BuildsAt (IsOnly (.node kind)) (Production.node kind Production.bump) s := by
  refine (BuildsAt.bump hs hk).node ?_
  rintro _ rfl
  exact ⟨hform, fun _ => solid_of_token hk⟩

theorem BuildsAt.operand (h : BuildsAt (IsOnly (.node kind)) p s) (hk : kind.isExpression = true) :
    BuildsAt IsOperand p s :=
  h.mono fun _ hls => ⟨kind, hk, hls⟩

theorem BuildsAt.typeForm (h : BuildsAt (IsOnly (.node kind)) p s) (hk : kind.isTypeForm = true) :
    BuildsAt IsType p s :=
  h.mono fun _ hls => ⟨kind, hk, hls⟩

/-- An expression that starts with a token of a known kind. -/
theorem BuildsAt.token_node {k : TokenKind} {ps : List Production} (hs : kindAhead 0 s = k)
    (hk : k ≠ .endOfFile) (hps : ps.Forall Plain) (hkind : kind.isExpression = true)
    (hform : ∀ ls, Form kind (.token k :: ls)) :
    BuildsAt IsOperand (Production.node kind (Production.seq (Production.bump :: ps))) s := by
  have hseq : BuildsAt (Both (IsOnly (.token k)) fun _ => True)
      (Production.seq (Production.bump :: ps)) s :=
    (BuildsAt.bump hs hk).andThen fun _ rest _ => (Plain.seq hps).builds rest
  refine (hseq.node ?_).operand hkind
  rintro _ ⟨_, rest, rfl, rfl, -⟩
  exact ⟨hform _, fun _ => solid_of_token hk⟩

/-- An operand and what follows it as one expression. -/
theorem BuildsAt.suffix_node {held : List Tree} {tail : Production} (hheld : Labelled IsOperand held)
    (htail : BuildsAt L tail s) (hk : kind.isExpression = true)
    (hform : ∀ e ls, NodeKind.isExpression e = true → L ls → Form kind (.node e :: ls)) :
    BuildsAt IsOperand (Production.node kind (Production.seq [Production.keep held, tail])) s := by
  have hseq : BuildsAt (Concat [L]) (Production.seq [tail]) s := htail.seq .nil
  refine ((hseq.keep_seq hheld).node ?_).operand hk
  rintro _ ⟨_, _, rfl, ⟨e, he, rfl⟩, b, _, rfl, hb, rfl⟩
  rw [List.append_nil]
  exact ⟨hform e b he hb, fun _ => ⟨_, List.mem_cons_self, Label.isSolid_of_isExpression he⟩⟩

theorem Builds.chain {suffix : Suffix} (hp : Builds IsOperand p)
    (h : ∀ held s kind tail, Labelled IsOperand held → suffix s = some (kind, tail) →
      BuildsAt IsOperand (Production.node kind (Production.seq [Production.keep held, tail])) s) :
    Builds IsOperand (chain p suffix) :=
  Makes.chain hp h

theorem BuildsAt.suffixed {suffix : Suffix} {held : List Tree} (hheld : Labelled L held)
    (h : ∀ kind tail, suffix s = some (kind, tail) →
      BuildsAt L (Production.node kind (Production.seq [Production.keep held, tail])) s) :
    BuildsAt L (suffixed suffix held) s :=
  MakesAt.suffixed hheld h

end Production

end SharpLint
