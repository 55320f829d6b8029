/-!
# Byte offsets in a list of characters

Offsets count the bytes of the UTF-8 encoding. `byteLength` is the additive measure, and
`splitAtByte?` cuts a text at an offset that falls between two characters:

    splitAtByte? (byteLength a) (a ++ b) = some (a, b)           (splitAtByte?_append)
    splitAtByte? n cs = some (a, b) → a ++ b = cs ∧ byteLength a = n   (of_splitAtByte?)
-/

namespace SharpLint

/-! ## Algorithm -/

/-- Number of bytes of the UTF-8 encoding. -/
def byteLength : List Char → Nat
  | [] => 0
  | c :: cs => c.utf8Size + byteLength cs

/-- The characters before and after the byte offset `n`; `none` inside a character or past the
end. -/
def splitAtByte? (n : Nat) : List Char → Option (List Char × List Char)
  | [] => if n = 0 then some ([], []) else none
  | c :: cs =>
    if n = 0 then some ([], c :: cs)
    else if n < c.utf8Size then none
    else (splitAtByte? (n - c.utf8Size) cs).map fun (a, b) => (c :: a, b)

/-- The characters between two byte offsets. -/
def sliceBytes? (start stop : Nat) (cs : List Char) : Option (List Char) :=
  match splitAtByte? start cs with
  | none => none
  | some (_, rest) =>
    if stop < start then none else (splitAtByte? (stop - start) rest).map (·.1)

/-! ## Lemmas -/

@[simp] theorem byteLength_nil : byteLength [] = 0 := rfl

@[simp] theorem byteLength_cons (c : Char) (cs : List Char) :
    byteLength (c :: cs) = c.utf8Size + byteLength cs := rfl

@[simp] theorem byteLength_append (a b : List Char) :
    byteLength (a ++ b) = byteLength a + byteLength b := by
  induction a with
  | nil => simp
  | cons c a ih => simp [ih, Nat.add_assoc]

theorem splitAtByte?_append (a b : List Char) :
    splitAtByte? (byteLength a) (a ++ b) = some (a, b) := by
  induction a with
  | nil => cases b <;> simp [splitAtByte?]
  | cons c a ih =>
    have hc := c.utf8Size_pos
    have h0 : ¬ byteLength (c :: a) = 0 := by simp only [byteLength_cons]; omega
    have h1 : ¬ byteLength (c :: a) < c.utf8Size := by simp only [byteLength_cons]; omega
    rw [List.cons_append, splitAtByte?, if_neg h0, if_neg h1]
    simp [ih]

theorem of_splitAtByte? {n : Nat} {cs a b : List Char} (h : splitAtByte? n cs = some (a, b)) :
    a ++ b = cs ∧ byteLength a = n := by
  induction cs generalizing n a with
  | nil =>
    rw [splitAtByte?] at h
    split at h <;> simp_all
  | cons c cs ih =>
    rw [splitAtByte?] at h
    split at h
    · simp_all
    · split at h
      · cases h
      · obtain ⟨⟨a', b'⟩, h', e⟩ := Option.map_eq_some_iff.1 h
        cases e
        have := ih h'
        refine ⟨by simp [this.1], ?_⟩
        simp only [byteLength_cons, this.2]
        omega

/-- The size of a string is the byte length of its characters. -/
theorem utf8ByteSize_eq_byteLength (s : String) : s.utf8ByteSize = byteLength s.toList := by
  have h : ∀ cs : List Char, (String.ofList cs).utf8ByteSize = byteLength cs := by
    intro cs
    induction cs with
    | nil => rfl
    | cons c cs ih =>
      have e : String.ofList (c :: cs) = String.singleton c ++ String.ofList cs := by
        apply String.toList_inj.1
        simp
      rw [e, String.utf8ByteSize_append, ih, byteLength_cons, String.utf8ByteSize_singleton]
  have := h s.toList
  rwa [String.ofList_toList] at this

end SharpLint
