import SharpLint.Grammar.Statement

/-!
# Looking ahead with a cursor

A look ahead tries to read a type and judges what it read and what stands behind it. Here it moves a
cursor, as reading does: a try that fails leaves the cursor wherever it got to, which may be any place
(`lost`), and the look ahead puts it back (`probe`).

Wherever a failed try ends, each look ahead answers as the test of the grammar does and ends where it
started (`localVariables_eq`, `designation_eq`, `cast_eq`, `compositeType_eq`). Behind a word for passing
by reference, the try is kept if it declares a variable (`declaredVariable_eq`).
-/

namespace SharpLint.Lookahead

open Production Grammar

section

variable {α : Type} (lost : List Lexeme → List Lexeme) (g : Inner)

/-- Reads with `p` at the cursor; where that fails, the cursor is lost. -/
def attempt (p : Production) : StateM (List Lexeme) (Option (List Tree)) := fun s =>
  match p s with
  | .ok (ts, rest) => (some ts, rest)
  | .error _ => (none, lost s)

/-- Asks, and puts the cursor back. -/
def probe (ask : StateM (List Lexeme) α) : StateM (List Lexeme) α := do
  let start ← get
  let answer ← ask
  set start
  return answer

/-- Reads a type, if there is one, and judges it and the place behind it. -/
def askType (judge : List Tree → List Lexeme → Bool) : StateM (List Lexeme) Bool := do
  match ← attempt lost (type g) with
  | none => return false
  | some ts => return judge ts (← get)

/-- A type and a name, with `=`, `;` or `,` after them. -/
def localVariables : StateM (List Lexeme) Bool :=
  probe <| askType lost g fun _ s =>
    atKind .identifier s &&
      (kindAhead 1 s == .eq || kindAhead 1 s == .semicolon || kindAhead 1 s == .comma)

/-- A type with a name after it. -/
def designation : StateM (List Lexeme) Bool :=
  probe <| askType lost g fun _ s => atKind .identifier s && !atPatternWord s

/-- A parenthesized type with an operand after it, from the parenthesis on. -/
def cast : StateM (List Lexeme) Bool :=
  probe do
    modify fun s => s.drop 1
    let inside ← get
    askType lost g fun _ s =>
      atKind .closeParen s && (atPredefinedType inside ||
        match kindAhead 1 s with
        | .identifier | .numericLiteral | .stringLiteral | .openParen => true
        | .keyword .kwThis | .keyword .kwNew => true
        | _ => false)

/-- A type whose text has `<` or `[`. -/
def compositeType : StateM (List Lexeme) Bool :=
  probe <| askType lost g fun ts _ => ts.any fun t => t.fullChars.any fun c => c == '<' || c == '['

/-- A type and a name, read if a comma or `close` stands after them; else nothing is read. -/
def declaredVariable (close : TokenKind) : StateM (List Lexeme) (Option (List Tree)) := do
  let start ← get
  let back : StateM (List Lexeme) (Option (List Tree)) := do
    set start
    return none
  match ← attempt lost (type g) with
  | none => back
  | some ty =>
    let s ← get
    if atKind .identifier s && (kindAhead 1 s == close || kindAhead 1 s == .comma) then
      let name ← attempt lost bump
      return name.map fun name => [.node .declarationExpression (ty ++ name)]
    else back

end

/-! ## Back to where it started -/

section

variable {α : Type} {lost : List Lexeme → List Lexeme} {g : Inner} {s rest : List Lexeme}
  {p : Production} {ts : List Tree}

theorem run_bind {α β : Type} {ask : StateM (List Lexeme) α} {next : α → StateM (List Lexeme) β}
    {answer : α} (h : ask.run s = (answer, rest)) : (ask >>= next).run s = (next answer).run rest := by
  rw [StateT.run_bind, h]
  rfl

theorem get_run (s : List Lexeme) : (get : StateM (List Lexeme) (List Lexeme)).run s = (s, s) := rfl

theorem attempt_ok (h : p s = .ok (ts, rest)) : (attempt lost p).run s = (some ts, rest) := by
  simp only [attempt, StateT.run, h]

theorem attempt_error {e : FaultAt} (h : p s = .error e) :
    (attempt lost p).run s = (none, lost s) := by
  simp only [attempt, StateT.run, h]

/-- Whatever is asked, the cursor is back where it was. -/
theorem probe_run (ask : StateM (List Lexeme) α) : (probe ask).run s = ((ask.run s).1, s) := rfl

theorem askType_ok {judge : List Tree → List Lexeme → Bool} (h : type g s = .ok (ts, rest)) :
    (askType lost g judge).run s = (judge ts rest, rest) := by
  rw [askType, run_bind (attempt_ok h)]
  rfl

theorem askType_error {judge : List Tree → List Lexeme → Bool} {e : FaultAt}
    (h : type g s = .error e) : (askType lost g judge).run s = (false, lost s) := by
  rw [askType, run_bind (attempt_error h)]
  rfl

theorem afterType?_ok (h : type g s = .ok (ts, rest)) : afterType? g s = some rest := by
  rw [afterType?, h]

theorem afterType?_error {e : FaultAt} (h : type g s = .error e) : afterType? g s = none := by
  rw [afterType?, h]

theorem localVariables_eq : (localVariables lost g).run s = (looksLikeVariables g s, s) := by
  rw [localVariables, probe_run, looksLikeVariables]
  cases hty : type g s with
  | error e => rw [askType_error hty, afterType?_error hty]
  | ok read => rw [askType_ok hty, afterType?_ok hty]

theorem designation_eq : (designation lost g).run s = (looksLikeDesignation g s, s) := by
  rw [designation, probe_run, looksLikeDesignation]
  cases hty : type g s with
  | error e => rw [askType_error hty, afterType?_error hty]
  | ok read => rw [askType_ok hty, afterType?_ok hty]

theorem compositeType_eq : (compositeType lost g).run s = (looksLikeCompositeType g s, s) := by
  rw [compositeType, probe_run, looksLikeCompositeType]
  cases hty : type g s with
  | error e => rw [askType_error hty]
  | ok read => rw [askType_ok hty]

/-- The type is tried behind the parenthesis, and the cursor goes back before it. -/
theorem cast_eq : (cast lost g).run s = (looksLikeCast g s, s) := by
  have hskip : (modify fun s => s.drop 1 : StateM (List Lexeme) Unit).run s = ((), s.drop 1) := rfl
  rw [cast, probe_run, looksLikeCast, run_bind hskip, run_bind (get_run _)]
  cases hty : type g (s.drop 1) with
  | error e => rw [askType_error hty, afterType?_error hty]
  | ok read =>
    rw [afterType?_ok hty]
    exact congrArg (fun answer => (answer.1, s)) (askType_ok hty)

/-- A variable is read as the grammar reads it, or nothing is read and the cursor is back. -/
theorem declaredVariable_eq (close : TokenKind) :
    (declaredVariable lost g close).run s =
      if declaresVariable g close s then
        (attempt id (node .declarationExpression (seq [type g, bump]))).run s
      else (none, s) := by
  rw [declaredVariable, declaresVariable, run_bind (get_run s)]
  cases hty : type g s with
  | error e =>
    rw [run_bind (attempt_error hty), afterType?_error hty]
    rfl
  | ok read =>
    obtain ⟨ty, rest⟩ := read
    obtain ⟨name, next, hname⟩ : ∃ name next, bump rest = .ok (name, next) := by
      cases rest with
      | nil => exact ⟨_, _, rfl⟩
      | cons l rest => exact ⟨_, _, rfl⟩
    have hboth : node .declarationExpression (seq [type g, bump]) s =
        .ok ([.node .declarationExpression (ty ++ name)], next) := by
      simp only [node, seq, andThen, hty, hname, Production.empty, keep, List.append_nil]
    rw [run_bind (attempt_ok hty), afterType?_ok hty, attempt_ok hboth]
    dsimp only
    rw [run_bind (get_run rest)]
    split
    · rw [run_bind (attempt_ok hname)]
      rfl
    · rfl

end

end SharpLint.Lookahead
