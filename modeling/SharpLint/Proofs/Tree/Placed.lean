import SharpLint.Proofs.Grammar.CompilationUnit
import SharpLint.Proofs.Lexeme.Spelled
import SharpLint.Proofs.Tree.Trivia

/-!
# Where trivia stand

A tree prints its trivia and the texts of its tokens one after the other. So every piece of trivia
stands at an offset, that of what is printed in front of it (`mem_placedFrom_iff`), and two pieces that
stand in a tree are one and the same, or one ends where or before the other starts (`placed_cases`).

In the tree of a text, comments that go to the end of their line start with two slashes and have no
line end (`fitsLine_of_parse`).
-/

namespace SharpLint

/-! ## Parts -/

/-- A piece of trivia, or the text of a token. -/
inductive Part where
  | trivia (t : Trivia)
  | word (text : String)

namespace Part

/-- What a part prints. -/
def text : Part → String
  | .trivia t => t.text
  | .word text => text

/-- What parts print. -/
def chars (ps : List Part) : List Char := ps.flatMap (·.text.toList)

/-- The trivia among parts, with the offsets at which they stand. -/
def placedFrom (offset : Nat) : List Part → List (Nat × Trivia)
  | [] => []
  | .trivia t :: ps => (offset, t) :: placedFrom (offset + t.width) ps
  | .word text :: ps => placedFrom (offset + text.utf8ByteSize) ps

theorem chars_append (as bs : List Part) : chars (as ++ bs) = chars as ++ chars bs :=
  List.flatMap_append

theorem chars_cons (p : Part) (ps : List Part) : chars (p :: ps) = p.text.toList ++ chars ps := rfl

theorem chars_map_trivia (ts : List Trivia) : chars (ts.map .trivia) = Trivia.chars ts := by
  rw [chars, List.flatMap_map]
  rfl

/-- Trivia stand behind what the parts in front of them print. -/
theorem mem_placedFrom_iff {offset place : Nat} {c : Trivia} {ps : List Part} :
    (place, c) ∈ placedFrom offset ps ↔
      ∃ front back, ps = front ++ .trivia c :: back ∧ place = offset + byteLength (chars front) := by
  induction ps generalizing offset with
  | nil =>
    refine ⟨nofun, ?_⟩
    rintro ⟨front, back, h, -⟩
    cases front with
    | nil => cases h
    | cons p front => cases h
  | cons p ps ih =>
    have hnext : placedFrom offset (p :: ps) = (match p with
        | .trivia t => [(offset, t)]
        | .word _ => []) ++ placedFrom (offset + byteLength p.text.toList) ps := by
      cases p with
      | trivia t => rw [placedFrom, Trivia.width, utf8ByteSize_eq_byteLength]; rfl
      | word text => rw [placedFrom, utf8ByteSize_eq_byteLength]; rfl
    rw [hnext, List.mem_append, ih]
    constructor
    · rintro (h | ⟨front, back, rfl, rfl⟩)
      · cases p with
        | word text => cases h
        | trivia t =>
          obtain ⟨rfl, rfl⟩ := Prod.mk.inj (List.mem_singleton.mp h)
          exact ⟨[], ps, rfl, rfl⟩
      · refine ⟨p :: front, back, rfl, ?_⟩
        rw [chars_cons, byteLength_append, Nat.add_assoc]
    · rintro ⟨front, back, h, rfl⟩
      cases front with
      | nil =>
        obtain ⟨rfl, rfl⟩ := List.cons.inj h
        exact .inl (List.mem_singleton.mpr rfl)
      | cons q front =>
        obtain ⟨rfl, rfl⟩ := List.cons.inj h
        refine .inr ⟨front, back, rfl, ?_⟩
        rw [chars_cons, byteLength_append, Nat.add_assoc]

/-- Two pieces of trivia are the same one, or apart. -/
theorem placedFrom_cases {offset i j : Nat} {c d : Trivia} {ps : List Part}
    (hc : (i, c) ∈ placedFrom offset ps) (hd : (j, d) ∈ placedFrom offset ps) :
    i + c.width ≤ j ∨ i = j ∧ c = d ∨ j + d.width ≤ i := by
  obtain ⟨front, back, rfl, rfl⟩ := mem_placedFrom_iff.mp hc
  obtain ⟨front', back', hparts, rfl⟩ := mem_placedFrom_iff.mp hd
  -- the part at which the longer of the two fronts goes on is the piece behind the shorter one
  have hbehind {as as' bs bs' : List Part} {x y : Trivia}
      (h : as ++ .trivia x :: bs = as' ++ .trivia y :: bs') (hlt : as.length < as'.length) :
      byteLength (chars as) + x.width ≤ byteLength (chars as') := by
    obtain ⟨rest, rfl, hrest⟩ | ⟨rest, rfl, -⟩ := List.append_eq_append_iff.mp h
    · cases rest with
      | nil => simp at hlt
      | cons p rest =>
        obtain ⟨rfl, -⟩ := List.cons.inj hrest
        rw [chars_append, chars_cons, byteLength_append, byteLength_append, Trivia.width,
          utf8ByteSize_eq_byteLength]
        exact Nat.add_le_add_left (Nat.le_add_right _ _) _
    · rw [List.length_append] at hlt
      omega
  rcases Nat.lt_trichotomy front.length front'.length with hlt | heq | hgt
  · have := hbehind hparts hlt
    omega
  · obtain ⟨rfl, hrest⟩ := List.append_inj hparts heq
    obtain ⟨hsame, -⟩ := List.cons.inj hrest
    exact .inr (.inl ⟨rfl, Part.trivia.inj hsame⟩)
  · have := hbehind hparts.symm hgt
    omega

end Part

/-- The trivia of a token and its text, in order. -/
def Token.parts (t : Token) : List Part :=
  t.leading.map .trivia ++ .word t.text :: t.trailing.map .trivia

namespace Tree

/-- The trivia and the texts of the tokens, in order. -/
def parts (t : Tree) : List Part := t.tokens.flatMap Token.parts

/-- All trivia with their offsets. -/
def placedTrivia (t : Tree) : List (Nat × Trivia) := Part.placedFrom 0 t.parts

theorem chars_parts (t : Tree) : Part.chars t.parts = t.fullChars := by
  have htoken : ∀ u : Token, Part.chars u.parts = u.fullChars := by
    intro u
    rw [Token.parts, Part.chars_append, Part.chars_cons, Part.chars_map_trivia, Part.chars_map_trivia,
      ← List.append_assoc]
    rfl
  rw [parts, Part.chars, List.flatMap_assoc, fullChars]
  exact List.flatMap_congr fun u _ => htoken u

variable {t : Tree} {offset : Nat} {c : Trivia}

theorem exists_split_of_placed (h : (offset, c) ∈ t.placedTrivia) :
    ∃ front back, t.fullChars = front ++ (c.text.toList ++ back) ∧ offset = byteLength front := by
  obtain ⟨front, back, hparts, rfl⟩ := Part.mem_placedFrom_iff.mp h
  refine ⟨Part.chars front, Part.chars back, ?_, Nat.zero_add _⟩
  rw [← chars_parts, hparts, Part.chars_append, Part.chars_cons]
  rfl

theorem mem_trivia_of_placed (h : (offset, c) ∈ t.placedTrivia) : c ∈ t.trivia := by
  obtain ⟨front, back, hparts, -⟩ := Part.mem_placedFrom_iff.mp h
  have hmem : Part.trivia c ∈ t.parts := hparts ▸ List.mem_append_right _ List.mem_cons_self
  obtain ⟨u, hu, hmem⟩ := List.mem_flatMap.mp hmem
  refine List.mem_flatMap.mpr ⟨u, hu, ?_⟩
  simpa [Token.parts, Token.trivia] using hmem

end Tree

/-! ## Comments of a text -/

namespace Lexeme

/-- Trivia that wait, or that a token has which still takes some. -/
def Pending.trivia : Pending → List Trivia
  | .leading ts => ts
  | .trailing l => l.token.trivia

theorem trivia_trail (l : Lexeme) (t : Trivia) :
    (l.trail t).token.trivia = l.token.trivia ++ [t] := by
  simp [trail, Token.trivia]

theorem trivia_token_of (kind : TokenKind) (text : String) (ts : List Trivia) :
    (⟨kind, text, ts, []⟩ : Token).trivia = ts :=
  List.append_nil ts

/-- The trivia of lexemes come from the pieces. -/
theorem forall_trivia_attach {P : Trivia → Prop} (stop : Nat) (pending : Pending) {ps : List Piece}
    (hpending : ∀ c ∈ pending.trivia, P c) (hps : ∀ c, Piece.trivia c ∈ ps → P c) :
    ∀ l ∈ attach stop pending ps, ∀ c ∈ l.token.trivia, P c := by
  have htail {p : Piece} {ps : List Piece} (h : ∀ c, Piece.trivia c ∈ p :: ps → P c) :
      ∀ c, Piece.trivia c ∈ ps → P c := fun c hc => h c (List.mem_cons_of_mem p hc)
  induction pending, ps using attach.induct with
  | case1 ts =>
    rw [attach, List.forall_mem_singleton, endOfText, trivia_token_of]
    exact hpending
  | case2 l =>
    rw [attach, List.forall_mem_cons, List.forall_mem_singleton]
    exact ⟨hpending, List.forall_mem_nil P⟩
  | case3 ts t ps ih =>
    rw [attach]
    refine ih ?_ (htail hps)
    exact List.forall_mem_append.mpr
      ⟨hpending, List.forall_mem_singleton.mpr (hps t List.mem_cons_self)⟩
  | case4 l t ps hend ih =>
    rw [attach, if_pos hend, List.forall_mem_cons, trivia_trail, List.forall_mem_append,
      List.forall_mem_singleton]
    exact ⟨⟨hpending, hps t List.mem_cons_self⟩, ih (List.forall_mem_nil P) (htail hps)⟩
  | case5 l t ps hend ih =>
    rw [attach, if_neg hend]
    refine ih ?_ (htail hps)
    rw [Pending.trivia, trivia_trail, List.forall_mem_append, List.forall_mem_singleton]
    exact ⟨hpending, hps t List.mem_cons_self⟩
  | case6 ts kind text offset ps ih =>
    rw [attach]
    refine ih ?_ (htail hps)
    rw [Pending.trivia, trivia_token_of]
    exact hpending
  | case7 l kind text offset ps ih =>
    rw [attach, List.forall_mem_cons]
    exact ⟨hpending, ih (List.forall_mem_nil P) (htail hps)⟩

end Lexeme

/-- In the tree of a text, comments up to the end of a line are spelled as such. -/
theorem Tree.fitsLine_of_parse {text : String} {t : Tree} (h : parse text = .ok t) :
    ∀ c ∈ t.trivia, c.FitsLine := by
  obtain ⟨ls, hls, hunit⟩ := parse_eq_ok.mp h
  obtain ⟨ps, cursor, rfl, hread⟩ := Lexeme.ofChars_eq hls
  have hspelled := Piece.spelled_upTo hread
  have hlexemes := Lexeme.forall_trivia_attach (P := Trivia.FitsLine) (byteLength text.toList)
    (.leading []) nofun fun c hc => hspelled _ hc
  intro c hc
  rw [Tree.trivia, tokens_compilationUnit hunit (Lexeme.endsOnce_ofChars hls)] at hc
  obtain ⟨u, hu, hc⟩ := List.mem_flatMap.mp hc
  obtain ⟨l, hl, rfl⟩ := List.mem_map.mp hu
  exact hlexemes l hl c hc

end SharpLint
