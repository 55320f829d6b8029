import SharpLint.Grammar.Parse
import SharpLint.Proofs.Grammar.Declaration
import SharpLint.Proofs.Lexeme.Attach
import SharpLint.Proofs.Tree.Preorder

/-!
# A compilation unit has the tokens of its lexemes

The grammar is exact at every level of its references, and each member of a namespace has a token,
so that the members of a source file are read up to the end of the text. What stands there is the
last lexeme, and it is the one that ends the tree:

    compilationUnit s = .ok t  →  t.tokens = s.map token           (tokens_compilationUnit)

With the lexemes of a text for `s`, the tree of a text has exactly its tokens (`tokens_parse`).
-/

namespace SharpLint

open SharpLint.Tree Production Grammar

/-- No level of the grammar drops, repeats or moves a token. -/
theorem exact_level (n : Nat) : (Inner.level n).Exact := by
  induction n with
  | zero =>
    have hfail : Exact (Production.fail "source text") := .fail
    exact ⟨hfail, hfail, hfail, hfail, fun _ => hfail, hfail, hfail, hfail, hfail, hfail, hfail,
      fun _ => hfail⟩
  | succ n ih =>
    exact
      { type := exact_type ih
        expression := exact_expression ih
        unary := exact_unary ih
        coalesce := exact_coalesce ih
        binary := exact_binary ih
        pattern := exact_pattern ih
        negatedPattern := exact_negatedPattern ih
        initializer := exact_initializer ih
        block := exact_block ih
        statement := exact_statement ih
        member := exact_member ih
        members := exact_members ih }

/-! ## Productions that yield a token -/

namespace Production

/-- From `s`, the trees of `p` have a token. -/
def Yields (p : Production) (s : List Lexeme) : Prop :=
  ∀ ts rest, p s = .ok (ts, rest) → tokensOf ts ≠ []

variable {p q : Production} {s : List Lexeme} {held : List Tree}

theorem Yields.keep (h : tokensOf held ≠ []) : Yields (keep held) s := by
  intro ts rest hok
  rwa [(keep_eq_ok hok).1]

theorem Yields.bump (hs : s ≠ []) : Yields bump s := by
  intro ts rest hok
  obtain ⟨l, s, rfl⟩ := List.exists_cons_of_ne_nil hs
  simp only [Production.bump, Except.ok.injEq, Prod.mk.injEq] at hok
  simp [← hok.1, tokensOf, tokens]

theorem Yields.seq {ps : List Production} (hp : Yields p s) : Yields (seq (p :: ps)) s := by
  intro ts rest hok
  obtain ⟨ts₁, mid, ts₂, hfirst, -, rfl⟩ := andThen_eq_ok hok
  simp [hp _ _ hfirst]

theorem Yields.keep_seq {ps : List Production} (h : Yields (Production.seq ps) s) :
    Yields (Production.seq (Production.keep held :: ps)) s := by
  intro ts rest hok
  obtain ⟨ts₁, mid, ts₂, hkeep, hothers, rfl⟩ := andThen_eq_ok hok
  obtain ⟨rfl, rfl⟩ := keep_eq_ok hkeep
  simp [h _ _ hothers]

theorem Yields.node {kind : NodeKind} (hp : Yields p s) : Yields (node kind p) s := by
  intro ts rest hok
  obtain ⟨us, hok', rfl⟩ := node_eq_ok hok
  simpa [tokensOf, tokens] using hp _ _ hok'

theorem Yields.extend {next : List Tree → Production} (hp : Yields p s)
    (hnext : ∀ ts rest, tokensOf ts ≠ [] → Yields (next ts) rest) : Yields (extend p next) s := by
  intro ts rest hok
  obtain ⟨ts₁, mid, hfirst, hthen⟩ := extend_eq_ok hok
  exact hnext _ _ (hp _ _ hfirst) _ _ hthen

theorem Yields.look {choose : List Lexeme → Production} (h : Yields (choose s) s) :
    Yields (look choose) s :=
  h

theorem Yields.fail {what : String} : Yields (fail what) s := nofun

theorem Yields.suffixed {suffix : Suffix} (h : tokensOf held ≠ []) :
    Yields (suffixed suffix held) s := by
  refine .look ?_
  split
  · exact .keep h
  · exact .node (.seq (.keep h))

theorem ne_nil_of_kind {k : TokenKind} (h : kindAhead 0 s = k) (hk : k ≠ .endOfFile) : s ≠ [] := by
  rintro rfl
  exact hk h.symm

theorem ne_nil_of_atKind {k : TokenKind} (h : atKind k s = true) (hk : k ≠ .endOfFile) : s ≠ [] :=
  ne_nil_of_kind (beq_iff_eq.mp h) hk

theorem Yields.expect {kind : TokenKind} {what : String} (hk : kind ≠ .endOfFile) :
    Yields (expect kind what) s := by
  refine .look ?_
  split
  · rename_i hkind
    exact .bump (ne_nil_of_atKind hkind hk)
  · exact .fail

/-- A loop whose rounds each read a lexeme goes on until its test fails. -/
theorem many_end {test : List Lexeme → Bool} (hexact : ∀ s, test s = true → ExactAt [] p s)
    (hyields : ∀ s, test s = true → Yields p s) (hnil : test [] = false) {ts : List Tree}
    {rest : List Lexeme} (h : many test p s = .ok (ts, rest)) (hs : EndsOnce s) :
    test rest = false := by
  suffices hrounds : ∀ n s ts rest, manyUpTo test p n s = .ok (ts, rest) → EndsOnce s →
      s.length ≤ n → test rest = false from
    hrounds _ _ _ _ h hs (Nat.le_refl _)
  intro n
  induction n with
  | zero =>
    intro s ts rest h _ hlength
    obtain rfl : s = [] := List.length_eq_zero_iff.mp (Nat.le_zero.mp hlength)
    rwa [(keep_eq_ok h).2]
  | succ n ih =>
    intro s ts rest h hs hlength
    simp only [manyUpTo, whenever, look] at h
    split at h
    · rename_i htest
      obtain ⟨ts₁, mid, ts₂, hfirst, hothers, -⟩ := andThen_eq_ok h
      obtain ⟨read, rfl, htokens⟩ := hexact s htest _ _ hfirst hs
      have hread : read ≠ [] := by
        rintro rfl
        exact hyields _ htest _ _ hfirst (by simpa [tokensOf] using htokens)
      have hpos : 0 < read.length := List.length_pos_iff.mpr hread
      rw [List.length_append] at hlength
      exact ih _ _ _ hothers hs.right (by omega)
    · rename_i hfalse
      rw [(keep_eq_ok h).2]
      simpa using hfalse

end Production

/-! ## Members of namespaces yield tokens -/

namespace Grammar

variable {s : List Lexeme} {g : Inner}

theorem yields_simpleTypeName : Yields (simpleTypeName g) s := by
  refine .extend (.expect nofun) fun name s hname => .look ?_
  split
  · exact .node (.seq (.keep hname))
  · exact .node (.keep hname)

theorem yields_type : Yields (type g) s := by
  refine .extend (.extend (.look ?_) fun ts s hts => .suffixed hts) fun ts s hts => .suffixed hts
  split
  · rename_i htype
    refine .node (.bump ?_)
    rintro rfl
    simp [atPredefinedType, kindAhead, TokenKind.keyword?] at htype
  split
  · exact .extend yields_simpleTypeName fun ts s hts => .suffixed hts
  · exact .fail

/-- A declaration that starts with the lexeme at which it was recognised. -/
theorem yields_declaration {kind : NodeKind} {header : List Tree} {ps : List Production}
    (hs : s ≠ []) : Yields (node kind (seq (keep header :: bump :: ps))) s :=
  .node (.keep_seq (.seq (.bump hs)))

theorem yields_typedMember {header : List Tree} : Yields (typedMember g header) s := by
  refine yields_type.extend fun ty s hty => .look ?_
  have hstart {kind : NodeKind} {ps : List Production} :
      Yields (node kind (seq (seq [keep header, keep ty, bump] :: ps))) s :=
    .node (.seq (.keep_seq (.seq (.keep hty))))
  dsimp only
  split
  · exact hstart
  split
  · exact hstart
  split
  · exact .fail
  split
  case h_5 => exact .node (.keep_seq (.seq (.node (.seq (.keep hty)))))
  all_goals exact hstart

theorem yields_member : Yields (member g) s := by
  intro ts rest hok
  obtain ⟨header, mid, -, hbody⟩ := extend_eq_ok hok
  refine Yields.look ?_ ts rest hbody
  split <;> rename_i hk
  case h_6 =>
    split
    · rename_i hrecord
      simp only [atRecord, atWord, Bool.and_eq_true] at hrecord
      exact .look (yields_declaration (ne_nil_of_atKind hrecord.1.1 nofun))
    split
    · rename_i hname
      exact yields_declaration (ne_nil_of_atKind (Bool.and_eq_true_iff.mp hname).1 nofun)
    split
    · rename_i hconversion
      refine yields_declaration ?_
      rintro rfl
      simp [atConversion] at hconversion
    · exact yields_typedMember
  all_goals exact yields_declaration (ne_nil_of_kind hk nofun)

theorem yields_namespaceMember : Yields (namespaceMember g) s := by
  refine .look ?_
  split
  · rename_i husing
    exact .node (.seq (.bump (ne_nil_of_atKind husing nofun)))
  split
  · rename_i hnamespace
    refine .extend (.seq (.bump (ne_nil_of_atKind hnamespace nofun))) fun name s hname => .look ?_
    split
    · exact .node (.seq (.keep hname))
    · exact .node (.seq (.keep hname))
  · exact yields_member

end Grammar

/-- The members of a source file are read up to the end of the text. -/
theorem members_end {g : Inner} (hg : g.Exact) {s rest : List Lexeme} {ts : List Tree}
    (h : members g .endOfFile s = .ok (ts, rest)) (hs : EndsOnce s) : atEnd rest = true := by
  have hbefore : before .endOfFile rest = false :=
    many_end (fun _ _ => exactAt_namespaceMember hg) (fun _ _ => yields_namespaceMember) rfl h hs
  simpa [before, atEnd] using hbefore

/-- The tree of a source file has the tokens of its lexemes, the end of the text included. -/
theorem tokens_compilationUnit {s : List Lexeme} {t : Tree} (h : compilationUnit s = .ok t)
    (hs : EndsOnce s) : t.tokens = s.map Lexeme.token := by
  unfold compilationUnit at h
  split at h
  · cases h
  · rename_i ts rest hok
    obtain rfl := Except.ok.inj h
    obtain ⟨ts₁, mid, ts₂, hmembers, hlast, rfl⟩ := andThen_eq_ok hok
    obtain ⟨ts₃, mid', ts₄, hbump, hempty, rfl⟩ := andThen_eq_ok hlast
    obtain ⟨rfl, rfl⟩ := keep_eq_ok hempty
    have hg := exact_level s.length
    have hend := members_end hg hmembers hs
    obtain ⟨read, rfl, htokens⟩ := exact_members hg .endOfFile s _ _ hmembers hs
    -- at the end of the text one lexeme is left, and `bump` yields it
    cases mid with
    | nil =>
      obtain ⟨rfl, -⟩ := Prod.mk.inj (Except.ok.inj hbump)
      simpa [tokens, tokensOf] using htokens
    | cons l mid =>
      have hl : l.token.kind = .endOfFile := by simpa [atEnd, atKind, kindAhead] using hend
      obtain ⟨rfl, -⟩ := hs.right.1 hl
      obtain ⟨rfl, -⟩ := Prod.mk.inj (Except.ok.inj hbump)
      simp [tokens, tokensOf, htokens]

/-! ## From text to tree -/

theorem parse_eq_ok {text : String} {t : Tree} : parse text = .ok t ↔
    ∃ ls, Lexeme.ofChars text.toList = .ok ls ∧ compilationUnit ls = .ok t := by
  unfold parse
  dsimp only
  constructor
  · intro h
    split at h
    · cases h
    · rename_i ls hls
      split at h
      · cases h
      · rename_i t' hunit
        obtain rfl := Except.ok.inj h
        exact ⟨ls, hls, hunit⟩
  · rintro ⟨ls, hls, hunit⟩
    simp only [hls, hunit]

/-- The tokens of the tree of a text, with their trivia, are the lexemes of the text, each once and
in order, up to the end of the text. -/
theorem tokens_parse {text : String} {t : Tree} (h : parse text = .ok t) :
    ∃ ls, Lexeme.ofChars text.toList = .ok ls ∧
      ls.getLast?.map (·.token.kind) = some .endOfFile ∧
      (Node.root t).tokens.map TokenAt.token = ls.map Lexeme.token := by
  obtain ⟨ls, hls, hunit⟩ := parse_eq_ok.mp h
  refine ⟨ls, hls, Lexeme.getLast?_ofChars hls, ?_⟩
  rw [Node.map_token_tokens_root, tokens_compilationUnit hunit (Lexeme.endsOnce_ofChars hls)]

theorem tokens_parse_using :
    ∃ t, parse "using A;" = .ok t ∧ ∃ ls, Lexeme.ofChars "using A;".toList = .ok ls ∧
      ls.getLast?.map (·.token.kind) = some .endOfFile ∧
      (Node.root t).tokens.map TokenAt.token = ls.map Lexeme.token :=
  ⟨_, rfl, tokens_parse rfl⟩

end SharpLint
