import SharpLint.Diagnostic.Allow
import SharpLint.Proofs.Text.Lines
import SharpLint.Proofs.Tree.Placed

/-!
# Directives and comments

`allowedBy?` reads a line of text from its first pair of slashes, wherever that stands. The comments of
a tree decide the same where the slashes start a comment that goes to the end of the line
(`isSome_allowedBy?_iff`):

    x == y; // numguard: allow(all)              the comment is read
    "http://" + x; // numguard: allow(all)       slashes in a string: the comment is not read
    "// numguard: allow(all)"                    read, and no comment

Lines without a directive do not matter.
-/

namespace SharpLint

/-! ## Searching -/

section

variable {pattern cs : List Char}

theorem of_around? {front behind : List Char} (h : around? pattern cs = some (front, behind)) :
    cs = front ++ (pattern ++ behind) := by
  induction cs generalizing front with
  | nil =>
    rw [around?] at h
    split at h
    · rename_i hempty
      obtain ⟨rfl, rfl⟩ := Prod.mk.inj (Option.some.inj h)
      rw [List.isEmpty_iff.mp hempty]
      rfl
    · cases h
  | cons c cs ih =>
    rw [around?] at h
    split at h
    · rename_i hstarts
      obtain ⟨rfl, rfl⟩ := Prod.mk.inj (Option.some.inj h)
      exact (List.prefix_iff_eq_append.mp (List.isPrefixOf_iff_prefix.mp hstarts)).symm
    · obtain ⟨⟨front, behind⟩, hrest, hpair⟩ := Option.map_eq_some_iff.mp h
      obtain ⟨rfl, rfl⟩ := Prod.mk.inj hpair
      exact congrArg (List.cons c) (ih hrest)

/-- The first occurrence is not behind any other. -/
theorem exists_around? (pattern as bs : List Char) :
    ∃ front behind, around? pattern (as ++ (pattern ++ bs)) = some (front, behind) ∧
      front <+: as := by
  have hhere : pattern.isPrefixOf (pattern ++ bs) = true :=
    List.isPrefixOf_iff_prefix.mpr (List.prefix_append _ _)
  induction as with
  | nil =>
    rw [List.nil_append]
    cases hcs : pattern ++ bs with
    | nil =>
      obtain ⟨rfl, -⟩ := List.append_eq_nil_iff.mp hcs
      exact ⟨_, _, rfl, List.nil_prefix⟩
    | cons c cs =>
      rw [hcs] at hhere
      exact ⟨_, _, if_pos hhere, List.nil_prefix⟩
  | cons a as ih =>
    rw [List.cons_append, around?]
    split
    · exact ⟨_, _, rfl, List.nil_prefix⟩
    · obtain ⟨front, behind, hfound, hstarts⟩ := ih
      rw [hfound]
      exact ⟨_, _, rfl, List.cons_prefix_cons.mpr ⟨rfl, hstarts⟩⟩

end

/-! ## Directives -/

namespace Directive

theorem ofLine?_comment (rest : List Char) : ofLine? ('/' :: '/' :: rest) = ofComment? rest := by
  have hfound : around? ['/', '/'] ('/' :: '/' :: rest) = some ([], rest) := if_pos rfl
  rw [ofLine?, hfound, Option.bind_some]

end Directive

/-! ## Comments of a tree -/

theorem Trivia.FitsLine.notBreak {c : Trivia} (h : c.FitsLine) (hkind : c.kind.isLineComment = true) :
    ∀ ch ∈ c.text.toList, ch ≠ '\r' ∧ ch ≠ '\n' := by
  obtain ⟨rest, htext, hrest⟩ := h hkind
  rw [htext]
  simp only [List.forall_mem_cons]
  refine ⟨by decide, by decide, fun ch hch => ?_⟩
  simpa [Extent.isInLine] using hrest ch hch

namespace Tree

/-- The comments that go to the end of their line, with the places where they start. -/
def lineComments (t : Tree) : List (Position × Trivia) :=
  (t.placedTrivia.filter (·.2.kind.isLineComment)).map fun (offset, c) =>
    (positionAt t.fullChars offset, c)

/-- A comment that starts on the line has a directive for the code or the rule. -/
def commentAllows (t : Tree) (line : Nat) (code rule : String) : Bool :=
  t.lineComments.any fun (place, c) =>
    place.line == line && (Directive.ofLine? c.text.toList).any (·.covers code rule)

/-- A directive is read from the text of the line, or stands in a comment that starts on it. -/
def hasDirective (t : Tree) (line : Nat) : Bool :=
  ((lineText? t.fullChars line).bind Directive.ofLine?).isSome ||
    t.lineComments.any fun (place, c) =>
      place.line == line && (Directive.ofLine? c.text.toList).isSome

/-- The first pair of slashes on the line, if there is one, starts a comment that goes to the end of
the line. -/
def readsComment (t : Tree) (line : Nat) : Bool :=
  ((lineText? t.fullChars line).bind (around? ['/', '/'])).all fun (before, rest) =>
    t.lineComments.any fun (place, c) =>
      place == ⟨line, before.length + 1⟩ && c.text.toList == '/' :: '/' :: rest

variable {t : Tree} {place : Position} {c : Trivia}

theorem mem_lineComments : (place, c) ∈ t.lineComments ↔ c.kind.isLineComment = true ∧
    ∃ offset, (offset, c) ∈ t.placedTrivia ∧ positionAt t.fullChars offset = place := by
  simp only [lineComments, List.mem_map, List.mem_filter, Prod.exists, Prod.mk.injEq]
  constructor
  · rintro ⟨offset, _, ⟨hplaced, hkind⟩, hplace, rfl⟩
    exact ⟨hkind, offset, hplaced, hplace⟩
  · rintro ⟨hkind, offset, hplaced, hplace⟩
    exact ⟨offset, c, ⟨hplaced, hkind⟩, hplace, rfl⟩

theorem commentAllows_iff {line : Nat} {code rule : String} :
    t.commentAllows line code rule = true ↔ ∃ place c d, (place, c) ∈ t.lineComments ∧
      place.line = line ∧ Directive.ofLine? c.text.toList = some d ∧ d.covers code rule = true := by
  simp only [commentAllows, List.any_eq_true, Prod.exists, Bool.and_eq_true, beq_iff_eq,
    Option.any_eq_true]
  constructor
  · rintro ⟨place, c, hmem, hline, d, hd, hcovers⟩
    exact ⟨place, c, d, hmem, hline, hd, hcovers⟩
  · rintro ⟨place, c, d, hmem, hline, hd, hcovers⟩
    exact ⟨place, c, hmem, hline, d, hd, hcovers⟩

/-- Where a line is read from its first pair of slashes, these start a comment. -/
theorem exists_comment_of_reads {line : Nat} {text before rest : List Char}
    (hreads : t.readsComment line = true) (htext : lineText? t.fullChars line = some text)
    (hfound : around? ['/', '/'] text = some (before, rest)) :
    ∃ c, (⟨line, before.length + 1⟩, c) ∈ t.lineComments ∧ c.text.toList = '/' :: '/' :: rest := by
  rw [readsComment, htext, Option.bind_some, hfound, Option.all_some] at hreads
  obtain ⟨⟨place, c⟩, hmem, hc⟩ := List.any_eq_true.mp hreads
  obtain ⟨hplace, htext⟩ := Bool.and_eq_true_iff.mp hc
  obtain rfl := beq_iff_eq.mp hplace
  exact ⟨c, hmem, beq_iff_eq.mp htext⟩

theorem exists_isLine_of_comment (hc : (place, c) ∈ t.lineComments) :
    ∃ before line after, IsLine t.fullChars place.line before line after := by
  obtain ⟨-, offset, hplaced, rfl⟩ := mem_lineComments.mp hc
  obtain ⟨front, back, hsplit, rfl⟩ := exists_split_of_placed hplaced
  rw [hsplit, positionAt_line]
  refine exists_isLine ?_
  rw [List.count_append]
  exact Nat.le_add_right _ _

/-- A comment without line ends is a part of its line. -/
theorem exists_split_of_comment {before middle after : List Char} (hfits : c.FitsLine)
    (hc : (place, c) ∈ t.lineComments) (hline : IsLine t.fullChars place.line before middle after) :
    ∃ left right, middle = left ++ (c.text.toList ++ right) ∧ place.column = left.length + 1 ∧
      (byteLength (before ++ left), c) ∈ t.placedTrivia := by
  obtain ⟨hkind, offset, hplaced, hposition⟩ := mem_lineComments.mp hc
  obtain ⟨front, back, hsplit, rfl⟩ := exists_split_of_placed hplaced
  have hcount : front.count '\n' + 1 = place.line := by
    rw [← hposition, hsplit, positionAt_line]
  obtain ⟨left, right, rfl, rfl, hright⟩ := hline.of_split hsplit hcount
  rw [hline.positionAt_eq] at hposition
  have hcolumn : place.column = left.length + 1 := (congrArg Position.column hposition).symm
  -- the comment has no break, so that it ends before the line does
  have hbreak : '\n' ∉ c.text.toList := fun h => (hfits.notBreak hkind _ h).2 rfl
  obtain ⟨right, rfl, -⟩ | ⟨rest, hc, hafter⟩ := List.append_eq_append_iff.mp hright
  · exact ⟨left, right, rfl, hcolumn, hplaced⟩
  · cases rest with
    | nil =>
      refine ⟨left, [], ?_, hcolumn, hplaced⟩
      rw [hc, List.append_nil, List.append_nil]
    | cons first rest =>
      rcases hline.ends with hnil | ⟨behind, hbehind⟩
      · rw [hnil] at hafter
        cases hafter
      · rw [hbehind] at hafter
        rw [hc, (List.cons.inj hafter).1] at hbreak
        exact absurd (List.mem_append_right _ List.mem_cons_self) hbreak

/-- A comment that goes on to the end of the text is the only one behind its start. -/
theorem eq_of_first {before left left' rest : List Char} {c' : Trivia}
    (hc : (byteLength (before ++ left), c) ∈ t.placedTrivia)
    (hc' : (byteLength (before ++ left'), c') ∈ t.placedTrivia) (hne : c.text.toList ≠ [])
    (hstarts : left' <+: left)
    (htext : left ++ (c.text.toList ++ rest) = left' ++ c'.text.toList) : c' = c := by
  obtain ⟨mid, rfl⟩ := hstarts
  have hwidth : 0 < c.width := by
    obtain ⟨ch, chs, hcons⟩ := List.exists_cons_of_ne_nil hne
    have := ch.utf8Size_pos
    rw [Trivia.width, utf8ByteSize_eq_byteLength, hcons, byteLength_cons]
    omega
  have hlength : byteLength mid + (c.width + byteLength rest) = c'.width := by
    have := congrArg byteLength htext
    simp only [byteLength_append] at this
    rw [Trivia.width, Trivia.width, utf8ByteSize_eq_byteLength, utf8ByteSize_eq_byteLength]
    omega
  obtain h | ⟨-, rfl⟩ | h := Part.placedFrom_cases hc hc'
  · simp only [byteLength_append] at h
    omega
  · rfl
  · simp only [byteLength_append] at h
    omega

/-- A directive in a comment is read from its line. -/
theorem ofLine?_of_comment (hfits : ∀ c ∈ t.trivia, c.FitsLine) {d : Directive}
    (hc : (place, c) ∈ t.lineComments) (hd : Directive.ofLine? c.text.toList = some d)
    (hreads : t.readsComment place.line = true) :
    (lineText? t.fullChars place.line).bind Directive.ofLine? = some d := by
  have hfitsOf {place : Position} {c : Trivia} (hc : (place, c) ∈ t.lineComments) : c.FitsLine := by
    obtain ⟨-, offset, hplaced, -⟩ := mem_lineComments.mp hc
    exact hfits c (mem_trivia_of_placed hplaced)
  obtain ⟨hkind, -⟩ := mem_lineComments.mp hc
  obtain ⟨body, hbody, -⟩ := hfitsOf hc hkind
  have hne : c.text.toList ≠ [] := hbody ▸ List.cons_ne_nil _ _
  obtain ⟨before, line, after, hline⟩ := exists_isLine_of_comment hc
  obtain ⟨left, right, rfl, -, hplaced⟩ := exists_split_of_comment (hfitsOf hc) hc hline
  -- the text of the line keeps the comment, since this does not end with a line end
  have hlast : ∀ ch ∈ (left ++ c.text.toList).getLast?, ch ≠ '\r' ∧ ch ≠ '\n' := by
    intro ch hch
    rw [List.getLast?_append_of_ne_nil _ hne] at hch
    exact (hfitsOf hc).notBreak hkind ch (List.mem_of_getLast? hch)
  obtain ⟨rest, htext⟩ := exists_dropLineEnd hlast right
  have hlineText := hline.lineText?_eq
  rw [← List.append_assoc, htext, List.append_assoc] at hlineText
  rw [hbody, Directive.ofLine?_comment] at hd
  -- the first slashes are not behind those of the comment, and start a comment up to the end
  obtain ⟨front, behind, hfound, hstarts⟩ := exists_around? ['/', '/'] left (body ++ rest)
  rw [show ['/', '/'] ++ (body ++ rest) = c.text.toList ++ rest from hbody ▸ rfl] at hfound
  obtain ⟨c', hc', hbehind⟩ := exists_comment_of_reads hreads hlineText hfound
  obtain ⟨left', right', hsplit, hcolumn, hplaced'⟩ :=
    exists_split_of_comment (hfitsOf hc') hc' hline
  obtain rfl : left' = front := by
    have hlength : left'.length = front.length := Nat.succ.inj hcolumn.symm
    have hleft : left' <+: left ++ (c.text.toList ++ right) := hsplit ▸ List.prefix_append _ _
    exact (List.prefix_of_prefix_length_le hleft (hstarts.trans (List.prefix_append _ _))
      (Nat.le_of_eq hlength)).eq_of_length hlength
  have hall := of_around? hfound
  rw [show ['/', '/'] ++ behind = c'.text.toList from hbehind.symm] at hall
  obtain rfl := eq_of_first hplaced hplaced' hne hstarts hall
  obtain rfl : behind = body := by
    rw [hbody] at hbehind
    exact (List.cons.inj (List.cons.inj hbehind).2).2.symm
  rw [hlineText, Option.bind_some, Directive.ofLine?, hfound]
  exact hd

/-- The directive on a line covers something exactly when one in a comment on it does. -/
theorem any_covers_eq (hfits : ∀ c ∈ t.trivia, c.FitsLine) {line : Nat}
    (hreads : t.hasDirective line = true → t.readsComment line = true) (code rule : String) :
    ((lineText? t.fullChars line).bind Directive.ofLine?).any (·.covers code rule) =
      t.commentAllows line code rule := by
  rw [Bool.eq_iff_iff, commentAllows_iff, Option.any_eq_true]
  constructor
  · rintro ⟨d, hd, hcovers⟩
    have hhas : t.hasDirective line = true := by
      rw [hasDirective, hd]
      rfl
    obtain ⟨text, htext, hd⟩ := Option.bind_eq_some_iff.mp hd
    obtain ⟨⟨front, behind⟩, hfound, hd⟩ := Option.bind_eq_some_iff.mp hd
    obtain ⟨c, hc, hbody⟩ := exists_comment_of_reads (hreads hhas) htext hfound
    refine ⟨_, c, d, hc, rfl, ?_, hcovers⟩
    rw [hbody, Directive.ofLine?_comment]
    exact hd
  · rintro ⟨place, c, d, hc, rfl, hd, hcovers⟩
    have hcomment : t.lineComments.any (fun (p, c) =>
        p.line == place.line && (Directive.ofLine? c.text.toList).isSome) = true := by
      refine List.any_eq_true.mpr ⟨(place, c), hc, Bool.and_eq_true_iff.mpr ⟨beq_self_eq_true _, ?_⟩⟩
      exact Option.isSome_of_eq_some hd
    have hhas : t.hasDirective place.line = true := by
      rw [hasDirective, hcomment, Bool.or_true]
    exact ⟨d, ofLine?_of_comment hfits hc hd (hreads hhas), hcovers⟩

end Tree

/-- A finding on a line is allowed exactly when a comment that starts there or on the line above has a
directive that covers it, if the first pair of slashes on a line with a directive starts a comment that
goes to the end of the line. -/
theorem isSome_allowedBy?_iff {text : String} {t : Tree} (h : parse text = .ok t) {line : Nat}
    (hreads : ∀ n ∈ [line, line - 1], t.hasDirective n = true → t.readsComment n = true)
    (code rule : String) :
    (allowedBy? t.fullChars line code rule).isSome = true ↔
      ∃ n ∈ [line, line - 1], t.commentAllows n code rule = true := by
  rw [allowedBy?, List.findSome?_isSome_iff]
  refine exists_congr fun n => and_congr_right fun hn => ?_
  rw [Option.isSome_filter, Tree.any_covers_eq (Tree.fitsLine_of_parse h) (hreads n hn)]

/-- A string with slashes, a comment for documentation, and a comment behind code. -/
def readSource : String :=
  "class C \x7b\r\n  string S = \"http://\";\n  /// numguard: allow(NG1002) reason=\"bounded\"\n" ++
    "  float F = 1f * 2f; // double\n\x7d"

theorem isSome_allowedBy?_iff_readSource :
    ∃ t, parse readSource = .ok t ∧
      (∀ n ∈ [4, 4 - 1], t.hasDirective n = true → t.readsComment n = true) ∧
      ((allowedBy? t.fullChars 4 "NG1002" "floating-point-arithmetic").isSome = true ↔
        ∃ n ∈ [4, 4 - 1], t.commentAllows n "NG1002" "floating-point-arithmetic" = true) ∧
      (allowedBy? t.fullChars 4 "NG1002" "floating-point-arithmetic").isSome = true ∧
      (allowedBy? t.fullChars 4 "NG1000" "floating-point-equality").isSome = false := by
  have hrun : ((parse readSource).toOption.any fun t =>
      [4, 4 - 1].all (fun n => !t.hasDirective n || t.readsComment n) &&
        (allowedBy? t.fullChars 4 "NG1002" "floating-point-arithmetic").isSome &&
          !(allowedBy? t.fullChars 4 "NG1000" "floating-point-equality").isSome) = true := by
    decide +kernel
  cases ht : parse readSource with
  | error e => rw [ht] at hrun; cases hrun
  | ok t =>
    rw [ht] at hrun
    obtain ⟨hrun, hother⟩ := Bool.and_eq_true_iff.mp hrun
    obtain ⟨hlines, hallowed⟩ := Bool.and_eq_true_iff.mp hrun
    have hreads : ∀ n ∈ [4, 4 - 1], t.hasDirective n = true → t.readsComment n = true := by
      intro n hn hhas
      have hn := List.all_eq_true.mp hlines n hn
      rwa [hhas, Bool.not_true, Bool.false_or] at hn
    exact ⟨t, rfl, hreads, isSome_allowedBy?_iff ht hreads _ _, hallowed, by simpa using hother⟩

/-- A comment behind a string with slashes, and a string that reads like a comment. -/
def slashesSource : String :=
  "class C \x7b string S = \"http://\" + 1f; // numguard: allow(NG1006)\n" ++
    "string T = \"// numguard: allow(all)\"; \x7d"

/-- Slashes in a string hide the comment behind them, and make up a directive. -/
theorem allowedBy?_slashesSource :
    ∃ t, parse slashesSource = .ok t ∧
      (t.commentAllows 1 "NG1006" "floating-point-formatting" = true ∧
        (allowedBy? t.fullChars 1 "NG1006" "floating-point-formatting").isSome = false) ∧
      (∀ n ∈ [2, 2 - 1], t.commentAllows n "NG1000" "floating-point-equality" = false) ∧
        (allowedBy? t.fullChars 2 "NG1000" "floating-point-equality").isSome = true := by
  have hrun : ((parse slashesSource).toOption.any fun t =>
      t.commentAllows 1 "NG1006" "floating-point-formatting" &&
        !(allowedBy? t.fullChars 1 "NG1006" "floating-point-formatting").isSome &&
        [2, 2 - 1].all (fun n => !t.commentAllows n "NG1000" "floating-point-equality") &&
          (allowedBy? t.fullChars 2 "NG1000" "floating-point-equality").isSome) = true := by
    decide +kernel
  cases ht : parse slashesSource with
  | error e => rw [ht] at hrun; cases hrun
  | ok t =>
    rw [ht] at hrun
    simp only [Except.toOption, Option.any_some, Bool.and_eq_true, Bool.not_eq_true',
      List.all_eq_true] at hrun
    exact ⟨t, rfl, hrun.1.1, hrun.1.2, hrun.2⟩

end SharpLint
