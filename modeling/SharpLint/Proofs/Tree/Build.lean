import SharpLint.Proofs.Tree.Shape
import SharpLint.Tree.Build

/-!
# Built trees are sound

Every tree that is put together by `Build` from sound trees is sound, and so is a sound tree with
other outer trivia. A path with a name in it can be written as a chain of member accesses
(`exists_dotted`).
-/

namespace SharpLint

open SharpLint.Tree

namespace Tree

/-! ## Nodes and their children -/

theorem Sound.node {k : NodeKind} {cs : List Tree} (hshape : Shape k (cs.map label))
    (hcs : ∀ c ∈ cs, c.Sound) : (node k cs).Sound := by
  refine ⟨⟨hshape, shapedOf_iff.mpr fun c hc => (hcs c hc).shaped⟩, fun u hu => ?_⟩
  obtain ⟨c, hc, hu⟩ := mem_tokensOf.mp hu
  exact (hcs c hc).spelled u hu

theorem Sound.child {k : NodeKind} {cs : List Tree} (h : (Tree.node k cs).Sound) {c : Tree}
    (hc : c ∈ cs) : c.Sound :=
  ⟨shapedOf_iff.mp h.shaped.2 c hc, fun u hu => h.spelled u (mem_tokensOf.mpr ⟨c, hc, hu⟩)⟩

theorem Sound.token {t : Token} (h : t.kind ≠ .endOfFile → t.text ≠ "") : (token t).Sound := by
  refine ⟨trivial, fun u hu => ?_⟩
  rw [List.mem_singleton.mp hu]
  exact h

theorem Sound.hasWord {t : Tree} (h : t.Sound) (hsolid : t.label.isSolid = true) : t.HasWord :=
  Shaped.hasWord t h.shaped hsolid

/-! ## Other trivia -/

/-- The function changes trivia only. -/
structure KeepsWord (f : Token → Token) : Prop where
  kind : ∀ t, (f t).kind = t.kind
  text : ∀ t, (f t).text = t.text

variable {f : Token → Token}

theorem label_mapFirst (hf : KeepsWord f) (t : Tree) : (t.mapFirst f).label = t.label := by
  cases t with
  | token t => rw [mapFirst, label, label, hf.kind]
  | node k cs => rfl

theorem label_mapLast (hf : KeepsWord f) (t : Tree) : (t.mapLast f).label = t.label := by
  cases t with
  | token t => rw [mapLast, label, label, hf.kind]
  | node k cs => rfl

theorem labels_mapFirstOf (hf : KeepsWord f) (cs : List Tree) :
    (mapFirstOf f cs).map label = cs.map label := by
  induction cs with
  | nil => rfl
  | cons c cs ih =>
    rw [mapFirstOf]
    split
    · rw [List.map_cons, List.map_cons, label_mapFirst hf]
    · rw [List.map_cons, List.map_cons, ih]

theorem labels_mapLastOf (hf : KeepsWord f) (cs : List Tree) :
    (mapLastOf f cs).map label = cs.map label := by
  induction cs with
  | nil => rfl
  | cons c cs ih =>
    rw [mapLastOf]
    split
    · rw [List.map_cons, List.map_cons, ih]
    · rw [List.map_cons, List.map_cons, label_mapLast hf]

theorem KeepsWord.sound (hf : KeepsWord f) {t : Token} (h : (Tree.token t).Sound) :
    (Tree.token (f t)).Sound := by
  refine .token fun hend => ?_
  rw [hf.kind] at hend
  rw [hf.text]
  exact h.spelled t List.mem_cons_self hend

mutual

theorem Sound.mapFirst (hf : KeepsWord f) : (t : Tree) → t.Sound → (t.mapFirst f).Sound
  | .token t, h => hf.sound h
  | .node k cs, h => by
    refine .node ?_ (Sound.mapFirstOf hf cs fun c hc => h.child hc)
    rw [labels_mapFirstOf hf]
    exact h.shaped.1

theorem Sound.mapFirstOf (hf : KeepsWord f) : (cs : List Tree) → (∀ c ∈ cs, c.Sound) →
    ∀ c ∈ mapFirstOf f cs, c.Sound
  | [], _, c, hc => nomatch hc
  | d :: cs, h, c, hc => by
    rw [Tree.mapFirstOf] at hc
    split at hc
    · rcases List.mem_cons.mp hc with rfl | hc
      · exact Sound.mapFirst hf d (h d List.mem_cons_self)
      · exact h c (List.mem_cons_of_mem d hc)
    · rcases List.mem_cons.mp hc with rfl | hc
      · exact h c List.mem_cons_self
      · exact Sound.mapFirstOf hf cs (fun e he => h e (List.mem_cons_of_mem d he)) c hc

end

mutual

theorem Sound.mapLast (hf : KeepsWord f) : (t : Tree) → t.Sound → (t.mapLast f).Sound
  | .token t, h => hf.sound h
  | .node k cs, h => by
    refine .node ?_ (Sound.mapLastOf hf cs fun c hc => h.child hc)
    rw [labels_mapLastOf hf]
    exact h.shaped.1

theorem Sound.mapLastOf (hf : KeepsWord f) : (cs : List Tree) → (∀ c ∈ cs, c.Sound) →
    ∀ c ∈ mapLastOf f cs, c.Sound
  | [], _, c, hc => nomatch hc
  | d :: cs, h, c, hc => by
    rw [Tree.mapLastOf] at hc
    split at hc
    · rcases List.mem_cons.mp hc with rfl | hc
      · exact h c List.mem_cons_self
      · exact Sound.mapLastOf hf cs (fun e he => h e (List.mem_cons_of_mem d he)) c hc
    · rcases List.mem_cons.mp hc with rfl | hc
      · exact Sound.mapLast hf d (h d List.mem_cons_self)
      · exact h c (List.mem_cons_of_mem d hc)

end

theorem keepsWord_leading (ts : List Trivia) : KeepsWord fun t => { t with leading := ts } :=
  ⟨fun _ => rfl, fun _ => rfl⟩

theorem keepsWord_trailing (ts : List Trivia) : KeepsWord fun t => { t with trailing := ts } :=
  ⟨fun _ => rfl, fun _ => rfl⟩

theorem Sound.withTrivia {t : Tree} (h : t.Sound) (leading trailing : List Trivia) :
    ((t.withLeading leading).withTrailing trailing).Sound :=
  .mapLast (keepsWord_trailing trailing) _ (.mapFirst (keepsWord_leading leading) t h)

theorem label_withTrivia (t : Tree) (leading trailing : List Trivia) :
    ((t.withLeading leading).withTrailing trailing).label = t.label := by
  rw [withTrailing, label_mapLast (keepsWord_trailing trailing), withLeading,
    label_mapFirst (keepsWord_leading leading)]

/-- A sound tree that is an expression. -/
structure SoundExpression (t : Tree) : Prop where
  sound : t.Sound
  expression : ∃ k, t.label = .node k ∧ k.isExpression = true

theorem SoundExpression.isSolid {t : Tree} (h : t.SoundExpression) : t.label.isSolid = true := by
  obtain ⟨k, hlabel, hk⟩ := h.expression
  rw [hlabel]
  exact Label.isSolid_of_isExpression hk

end Tree

/-! ## Built trees -/

namespace Build

theorem sound_token {kind : TokenKind} (h : (kind.fixedText?.getD "") ≠ "") :
    (Build.token kind).Sound :=
  .token fun _ => h

theorem sound_identifierName {name : String} (h : name ≠ "") :
    (identifierName name).SoundExpression := by
  refine ⟨.node ⟨⟨nofun, nofun⟩, fun _ => ⟨_, List.mem_cons_self, rfl⟩⟩ ?_, _, rfl, rfl⟩
  simpa only [List.forall_mem_singleton] using Sound.token fun _ => h

theorem sound_memberAccess {receiver : Tree} {name : String} (h : receiver.SoundExpression)
    (hname : name ≠ "") : (memberAccess receiver name).SoundExpression := by
  obtain ⟨k, hlabel, hk⟩ := h.expression
  refine ⟨.node ⟨⟨k, hk, ?_⟩, fun _ => ⟨_, List.mem_cons_self, h.isSolid⟩⟩ ?_, _, rfl, rfl⟩
  · rw [List.map_cons, hlabel]
    rfl
  · simp only [List.forall_mem_cons]
    exact ⟨h.sound, sound_token (by decide), (sound_identifierName hname).sound, nofun⟩

/-! ### Paths -/

theorem ne_empty_of_mem_segments {path name : String} (h : name ∈ segments path) : name ≠ "" := by
  obtain ⟨cs, hcs, rfl⟩ := List.mem_map.mp h
  have hne : cs ≠ [] := by simpa using (List.mem_filter.mp hcs).2
  exact fun hempty => hne (by simpa using congrArg String.toList hempty)

/-- A chain of member accesses is a sound expression. -/
theorem sound_dotted {path : String} {t : Tree} (h : dotted? path = some t) : t.SoundExpression := by
  unfold dotted? at h
  split at h
  · cases h
  rename_i first others hsegments
  obtain rfl := Option.some.inj h
  have hnames : ∀ name ∈ first :: others, name ≠ "" := fun name hname =>
    ne_empty_of_mem_segments (hsegments ▸ hname)
  rw [List.forall_mem_cons] at hnames
  have hchain : ∀ names : List String, (∀ name ∈ names, name ≠ "") → ∀ receiver : Tree,
      receiver.SoundExpression → (names.foldl memberAccess receiver).SoundExpression := by
    intro names
    induction names with
    | nil => exact fun _ _ h => h
    | cons name names ih =>
      intro hnames receiver h
      rw [List.forall_mem_cons] at hnames
      exact ih hnames.2 _ (sound_memberAccess h hnames.1)
  exact hchain others hnames.2 _ (sound_identifierName hnames.1)

theorem splitAtEach_ne_nil (sep : Char) (cs : List Char) : splitAtEach sep cs ≠ [] := by
  cases cs with
  | nil => exact List.cons_ne_nil _ _
  | cons c cs =>
    rw [splitAtEach]
    split
    · exact List.cons_ne_nil _ _
    · split
      · exact List.cons_ne_nil _ _
      · exact List.cons_ne_nil _ _

theorem splitAtEach_append (sep : Char) (as bs : List Char) :
    splitAtEach sep (as ++ sep :: bs) = splitAtEach sep as ++ splitAtEach sep bs := by
  induction as with
  | nil => simp [splitAtEach]
  | cons a as ih =>
    rw [List.cons_append, splitAtEach, ih, splitAtEach]
    split
    · rfl
    · obtain ⟨part, parts, hparts⟩ := List.exists_cons_of_ne_nil (splitAtEach_ne_nil sep as)
      rw [hparts]
      rfl

theorem segments_append_dot (path name : String) (hname : splitAtEach '.' name.toList = [name.toList])
    (hne : name ≠ "") : segments (path ++ "." ++ name) = segments path ++ [name] := by
  have hchars : (path ++ "." ++ name).toList = path.toList ++ '.' :: name.toList := by
    simp only [String.toList_append, List.append_assoc]
    rfl
  have hlast : [name.toList].filter (!·.isEmpty) = [name.toList] := by simpa using hne
  rw [segments, hchars, splitAtEach_append, hname, List.filter_append, hlast, List.map_append,
    List.map_singleton, String.ofList_toList]
  rfl

/-- A path that ends with a name can be written out. -/
theorem exists_dotted (path name : String) (hname : splitAtEach '.' name.toList = [name.toList])
    (hne : name ≠ "") : ∃ t, dotted? (path ++ "." ++ name) = some t := by
  unfold dotted?
  rw [segments_append_dot path name hname hne]
  split
  · rename_i hnil
    exact absurd hnil (List.append_ne_nil_of_right_ne_nil _ (List.cons_ne_nil _ _))
  · exact ⟨_, rfl⟩

/-! ### Calls -/

theorem sound_argument {value : Tree} (h : value.Sound) : (argument value).Sound :=
  .node (shape_of_isFree rfl _) (by simpa only [List.forall_mem_singleton] using h)

theorem sound_commaSeparated {ts : List Tree} (h : ∀ t ∈ ts, t.Sound) :
    ∀ t ∈ commaSeparated ts, t.Sound := by
  fun_induction commaSeparated ts with
  | case1 => exact h
  | case2 t => exact h
  | case3 t ts hts ih =>
    rw [List.forall_mem_cons] at h
    simp only [List.forall_mem_cons]
    exact ⟨h.1, .token fun _ => by decide, ih h.2⟩

theorem labels_commaSeparated {ts : List Tree} (h : ∀ t ∈ ts, t.label = .node .argument) :
    (commaSeparated ts).map label = argumentLabels ts.length := by
  fun_induction commaSeparated ts with
  | case1 => rfl
  | case2 t => rw [List.map_singleton, h t List.mem_cons_self]; rfl
  | case3 t ts hts ih =>
    rw [List.forall_mem_cons] at h
    obtain ⟨u, us, rfl⟩ := List.exists_cons_of_ne_nil hts
    rw [List.map_cons, List.map_cons, h.1, ih h.2]
    rfl

/-- Behind the parenthesis stand arguments with commas, and the other parenthesis. -/
theorem sound_argumentListOf {cs : List Tree} {count : Nat}
    (hlabels : cs.map label = argumentLabels count ++ [.token .closeParen])
    (h : ∀ c ∈ cs, c.Sound) :
    (Tree.node .argumentList (Build.token .openParen :: cs)).Sound := by
  refine .node ⟨⟨count, congrArg (List.cons _) hlabels⟩, fun _ => ⟨_, List.mem_cons_self, rfl⟩⟩ ?_
  rw [List.forall_mem_cons]
  exact ⟨sound_token (by decide), h⟩

theorem sound_argumentList {values : List Tree} (h : ∀ t ∈ values, t.Sound) :
    (argumentList (values.map argument)).Sound := by
  let rest := commaSeparated (values.map argument) ++ [Build.token .closeParen]
  have hlabels : rest.map label =
      argumentLabels (values.map argument).length ++ [.token .closeParen] := by
    rw [List.map_append, labels_commaSeparated (List.forall_mem_map.mpr fun _ _ => rfl)]
    rfl
  have harguments : ∀ t ∈ values.map argument, t.Sound :=
    List.forall_mem_map.mpr fun t ht => sound_argument (h t ht)
  have hrest : ∀ c ∈ rest, c.Sound := by
    rw [List.forall_mem_append, List.forall_mem_singleton]
    exact ⟨sound_commaSeparated harguments, sound_token (by decide)⟩
  exact sound_argumentListOf hlabels hrest

theorem sound_call {callee arguments : Tree} (hcallee : callee.SoundExpression)
    (harguments : arguments.Sound) (hlabel : arguments.label = .node .argumentList) :
    (call callee arguments).SoundExpression := by
  obtain ⟨k, hk, hexpression⟩ := hcallee.expression
  refine ⟨.node ⟨⟨k, hexpression, ?_⟩, fun _ => ⟨_, List.mem_cons_self, hcallee.isSolid⟩⟩ ?_,
    _, rfl, rfl⟩
  · simp only [List.map_cons, List.map_nil, hk, hlabel]
  · simp only [List.forall_mem_cons]
    exact ⟨hcallee.sound, harguments, nofun⟩

theorem sound_stringLiteral (value : String) : (stringLiteral value).Sound := by
  refine .node ⟨⟨_, rfl⟩, fun _ => ⟨_, List.mem_cons_self, rfl⟩⟩ ?_
  rw [List.forall_mem_singleton]
  refine .token fun _ h => ?_
  have hchars : (literalText value).toList = [] := congrArg String.toList h
  rw [literalText, String.toList_ofList] at hchars
  cases hchars

theorem sound_modifierList {ms : List Token} (h : ∀ m ∈ ms, m.kind ≠ .endOfFile → m.text ≠ "") :
    (modifierList ms).Sound := by
  refine .node ⟨⟨ms.map Token.kind, ?_⟩, nofun⟩ fun c hc => ?_
  · rw [List.map_map, List.map_map]
    rfl
  · obtain ⟨m, hm, rfl⟩ := List.mem_map.mp hc
    exact .token (h m hm)

end Build

end SharpLint
