import SharpLint.Lexeme.Attach
import SharpLint.Proofs.Lexeme.Reading
import SharpLint.Proofs.Tree.Printed

/-!
# Literals are read back

A value is written character by character, some of them behind a backslash (`Build.escape_eq`). The
lexer steps over such a body one written character at a time, and ends at the quote behind it:

    Extent.quoted? '"' (value.flatMap escape ++ '"' :: rest) = some (… + 1)      (quoted?_escape)
    Lexeme.ofChars (literalText value).toList
      = one token with this text, and the end of the text                         (ofChars_literalText)

No written character starts another, so that the body determines the value
(`Build.flatMap_escape_injective`).
-/

namespace SharpLint

/-! ## Written characters -/

namespace Build

/-- What a character behind a backslash stands for. -/
def meaning (d : Char) : Char :=
  if d = 'n' then '\n' else if d = 'r' then '\r' else if d = 't' then '\t' else d

/-- A character is written behind a backslash, or as it is, and then it means nothing to the lexer. -/
theorem escape_eq (c : Char) :
    (∃ d, escape c = ['\\', d] ∧ meaning d = c) ∨
      escape c = [c] ∧ c ≠ '"' ∧ c ≠ '\\' ∧ c ≠ '\n' := by
  unfold escape
  split
  · rename_i hc
    exact .inl ⟨'"', rfl, hc.symm⟩
  split
  · rename_i hc
    exact .inl ⟨'\\', rfl, hc.symm⟩
  split
  · rename_i hc
    exact .inl ⟨'n', rfl, hc.symm⟩
  split
  · rename_i hc
    exact .inl ⟨'r', rfl, hc.symm⟩
  split
  · rename_i hc
    exact .inl ⟨'t', rfl, hc.symm⟩
  · rename_i hquote hbackslash hbreak _ _
    exact .inr ⟨rfl, hquote, hbackslash, hbreak⟩

theorem escape_ne_nil (c : Char) : escape c ≠ [] := by
  obtain ⟨d, h, -⟩ | ⟨h, -⟩ := escape_eq c
  · rw [h]
    exact List.cons_ne_nil _ _
  · rw [h]
    exact List.cons_ne_nil _ _

/-- No written character is the start of another. -/
theorem escape_append_inj {c d : Char} {s t : List Char} (h : escape c ++ s = escape d ++ t) :
    c = d ∧ s = t := by
  obtain ⟨x, hx, hc⟩ | ⟨hx, -, hc, -⟩ := escape_eq c
  · obtain ⟨y, hy, hd⟩ | ⟨hy, -, hd, -⟩ := escape_eq d
    · rw [hx, hy] at h
      obtain ⟨hxy, hst⟩ := List.cons.inj (List.cons.inj h).2
      exact ⟨by rw [← hc, ← hd, hxy], hst⟩
    · rw [hx, hy] at h
      exact absurd (List.cons.inj h).1.symm hd
  · obtain ⟨y, hy, hd⟩ | ⟨hy, -⟩ := escape_eq d
    · rw [hx, hy] at h
      exact absurd (List.cons.inj h).1 hc
    · rw [hx, hy] at h
      exact List.cons.inj h

theorem flatMap_escape_injective {cs ds : List Char} (h : cs.flatMap escape = ds.flatMap escape) :
    cs = ds := by
  induction cs generalizing ds with
  | nil =>
    cases ds with
    | nil => rfl
    | cons d ds => exact absurd (List.append_eq_nil_iff.mp h.symm).1 (escape_ne_nil d)
  | cons c cs ih =>
    cases ds with
    | nil => exact absurd (List.append_eq_nil_iff.mp h).1 (escape_ne_nil c)
    | cons d ds =>
      obtain ⟨rfl, hrest⟩ := escape_append_inj h
      rw [ih hrest]

theorem toList_literalText (value : String) :
    (literalText value).toList = '"' :: (value.toList.flatMap escape ++ ['"']) := by
  rw [literalText, String.toList_ofList]
  rfl

/-- A written value does not start with two quotes, as a raw literal does behind its first. -/
theorem body_ne_quotes (value : String) (more : List Char) :
    value.toList.flatMap escape ++ ['"'] ≠ '"' :: '"' :: more := by
  intro h
  cases hvalue : value.toList with
  | nil =>
    rw [hvalue] at h
    cases h
  | cons c cs =>
    rw [hvalue, List.flatMap_cons] at h
    obtain ⟨d, hc, -⟩ | ⟨hc, hquote, -⟩ := escape_eq c
    · rw [hc] at h
      cases h
    · rw [hc] at h
      exact hquote (List.cons.inj h).1

theorem literalText_injective : Function.Injective literalText := by
  intro v w h
  have hchars := congrArg String.toList h
  rw [toList_literalText, toList_literalText] at hchars
  have hbody := List.append_cancel_right (List.cons.inj hchars).2
  exact String.toList_inj.mp (flatMap_escape_injective hbody)

end Build

/-! ## Extent of a literal -/

namespace Extent

theorem quoted?_escaped (quote d : Char) (cs : List Char) :
    quoted? quote ('\\' :: d :: cs) = (quoted? quote cs).map (· + 2) := by
  rw [quoted?, if_pos (beq_self_eq_true _)]

theorem quoted?_plain {quote c : Char} (hquote : c ≠ quote) (hbackslash : c ≠ '\\')
    (hbreak : c ≠ '\n') {cs : List Char} (hcs : cs ≠ []) :
    quoted? quote (c :: cs) = (quoted? quote cs).map (· + 1) := by
  cases cs with
  | nil => exact absurd rfl hcs
  | cons d cs =>
    rw [quoted?, if_neg (by simpa using hbackslash), if_neg (by simpa using hbreak),
      if_neg (by simpa using hquote)]

theorem quoted?_quote (cs : List Char) : quoted? '"' ('"' :: cs) = some 1 := by
  cases cs with
  | nil => rfl
  | cons d cs => rfl

/-- A written character is stepped over. -/
theorem quoted?_escape (c : Char) {cs : List Char} (hcs : cs ≠ []) :
    quoted? '"' (Build.escape c ++ cs) =
      (quoted? '"' cs).map (· + (Build.escape c).length) := by
  obtain ⟨d, h, -⟩ | ⟨h, hquote, hbackslash, hbreak⟩ := Build.escape_eq c
  · rw [h]
    exact quoted?_escaped '"' d cs
  · rw [h]
    exact quoted?_plain hquote hbackslash hbreak hcs

/-- A written value ends at the quote behind it. -/
theorem quoted?_flatMap_escape (value rest : List Char) :
    quoted? '"' (value.flatMap Build.escape ++ '"' :: rest) =
      some ((value.flatMap Build.escape).length + 1) := by
  induction value with
  | nil => exact quoted?_quote rest
  | cons c value ih =>
    rw [List.flatMap_cons, List.append_assoc, quoted?_escape c (by simp), ih, Option.map_some,
      List.length_append]
    congr 1
    omega

end Extent

/-! ## Reading a literal -/

theorem Cursor.rest_ofChars (cs : List Char) : (ofChars cs).rest = cs := rfl

theorem Cursor.taken_ofChars (text : String) :
    (ofChars text.toList).taken text.toList.length = text := by
  rw [taken, rest_ofChars, List.take_length, String.ofList_toList]

/-- As many characters further as the text has, is its end. -/
theorem Cursor.le_offset_advance (cs : List Char) :
    byteLength cs ≤ ((ofChars cs).advance cs.length).offset := by
  rw [advance_offset, rest_ofChars, List.take_length]
  exact Nat.le_add_left _ _

namespace Piece

/-- A quote opens a literal with escapes, unless two more stand behind it. -/
theorem next_quote {code : Nat → Cursor → Reading} {c : Cursor} {cs : List Char}
    (hrest : c.rest = '"' :: cs) (hraw : ∀ more, cs ≠ '"' :: '"' :: more) :
    next code c =
      literal c .stringLiteral .stringLiteral ((Extent.quoted? '"' cs).map (· + 1)) := by
  unfold next
  split <;> rename_i h <;> rw [hrest] at h
  case h_11 => exact absurd (List.cons.inj h).2 (hraw _)
  case h_12 =>
    obtain rfl := (List.cons.inj h).2
    rfl
  case h_14 =>
    rename_i hquote _
    exact absurd (List.cons.inj h).1.symm hquote
  all_goals cases h

/-- A text that one step reads. -/
theorem ofChars_of_next {cs : List Char} {ps : List Piece} {c : Cursor} (hcs : cs ≠ [])
    (h : ∀ code, next code (.ofChars cs) = .ok (ps, c)) (hend : byteLength cs ≤ c.offset) :
    ofChars cs = .ok ps := by
  obtain ⟨d, ds, rfl⟩ := List.exists_cons_of_ne_nil hcs
  have hstart : (Cursor.ofChars (d :: ds)).offset < byteLength (d :: ds) := by
    rw [byteLength_cons]
    exact Nat.add_pos_left d.utf8Size_pos (byteLength ds)
  have hrest : upTo (ds.length + 1) (byteLength (d :: ds)) c = .ok ([], c) := by
    rw [upTo, if_neg (Nat.not_lt.mpr hend)]
  have hread : upTo (ds.length + 2) (byteLength (d :: ds)) (.ofChars (d :: ds)) = .ok (ps, c) := by
    rw [upTo, if_pos hstart, h]
    simp only [bind, Except.bind, hrest, pure, Except.pure, List.append_nil]
  unfold ofChars
  rw [List.length_cons, hread]
  rfl

theorem next_literalText (code : Nat → Cursor → Reading) (value : String) :
    next code (.ofChars (Build.literalText value).toList) =
      .ok ([.token .stringLiteral (Build.literalText value) 0],
        (Cursor.ofChars (Build.literalText value).toList).advance
          (Build.literalText value).toList.length) := by
  have htext := Build.toList_literalText value
  have hrest := (Cursor.rest_ofChars (Build.literalText value).toList).trans htext
  have hlength : (Extent.quoted? '"' (value.toList.flatMap Build.escape ++ ['"'])).map (· + 1) =
      some (Build.literalText value).toList.length := by
    rw [Extent.quoted?_flatMap_escape, Option.map_some, htext, List.length_cons, List.length_append]
    rfl
  rw [next_quote hrest (Build.body_ne_quotes value), hlength, literal, Cursor.token,
    Cursor.taken_ofChars]
  rfl

end Piece

/-- A literal is read as one token, with nothing around it, and the end of the text. -/
theorem Lexeme.ofChars_literalText (value : String) :
    Lexeme.ofChars (Build.literalText value).toList =
      .ok [⟨.bare .stringLiteral (Build.literalText value), 0⟩,
        .endOfText [] (Build.literalText value).utf8ByteSize] := by
  have hcs : (Build.literalText value).toList ≠ [] := by
    rw [Build.toList_literalText]
    exact List.cons_ne_nil _ _
  unfold Lexeme.ofChars
  rw [Piece.ofChars_of_next hcs (fun code => Piece.next_literalText code value)
    (Cursor.le_offset_advance _), utf8ByteSize_eq_byteLength]
  rfl

/-- What a literal prints is read as one token, which has the whole text and nothing around it, and the
end of the text; and literals of different values print differently. -/
theorem Build.stringLiteral_readsBack :
    (∀ value : String, Lexeme.ofChars (Build.stringLiteral value).fullText.toList =
      .ok [⟨⟨.stringLiteral, (Build.stringLiteral value).fullText, [], []⟩, 0⟩,
        ⟨⟨.endOfFile, "", [], []⟩, (Build.stringLiteral value).fullText.utf8ByteSize⟩]) ∧
      Function.Injective fun value => (Build.stringLiteral value).fullText := by
  simp only [Build.fullText_stringLiteral]
  exact ⟨Lexeme.ofChars_literalText, Build.literalText_injective⟩

end SharpLint
