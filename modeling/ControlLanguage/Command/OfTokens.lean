import ControlLanguage.Command.Span

/-!
# Commands from tokens

Each value is read from the tokens between the parentheses of its parameter.
It is a call if it starts with a command name and a space and has a
parameter of its own; otherwise it falls into groups, which are spans in
parentheses and the runs between them.
-/

namespace ControlLanguage

/-- The opening parenthesis directly after a keyword, and what follows it. -/
def argumentStart? (t : Token) : List Token → Option (Token × List Token)
  | [] => none
  | p :: ts => if t.kind = .keyword ∧ p.kind = .parenOpen then some (p, ts) else none

theorem argumentStart?_eq {t p : Token} {ts us : List Token}
    (h : argumentStart? t ts = some (p, us)) : ts = p :: us := by
  cases ts with
  | nil => cases h
  | cons q ts =>
    simp only [argumentStart?] at h
    split at h
    · cases h; rfl
    · cases h

namespace Value

/-- One scalar token is a scalar; other tokens are an expression. -/
def ofRun (run : List Token) : Value :=
  match run with
  | [t] => if t.kind.isScalar then .scalar t.text else .expression run false
  | _ => .expression run false

/-- A positional run that is one span in parentheses loses them. -/
def ofPositional (run : List Token) : Value :=
  match run with
  | [] => ofRun []
  | t :: ts =>
    match t.kind, Span.of? 0 ts with
    | .parenOpen, some ⟨inner, _, []⟩ => .expression inner true
    | _, _ => ofRun run

/-- No group makes the empty scalar, one group stands for itself. -/
def ofGroups : List Value → Value
  | [] => .scalar []
  | [v] => v
  | vs => .group vs

def dropTrailingSpaces (ts : List Token) : List Token :=
  (ts.reverse.dropWhile (·.isSpace)).reverse

def readGroups (keyword : Text) (tokens : List Token) : Except SyntaxError (List Value) :=
  match tokens with
  | [] => .ok []
  | t :: ts =>
    if t.isSpace then readGroups keyword ts
    else if t.kind = .parenOpen then
      match _closed : Span.of? 0 ts with
      | none => .error (.atToken .unclosedParen t (some keyword))
      | some s => (readGroups keyword s.rest).map (.expression s.inner true :: ·)
    else
      match _run : takeRun (some keyword) stopsAtGroup false (t :: ts) with
      | .error e => .error e
      | .ok (run, rest) => (readGroups keyword rest).map (ofRun (dropTrailingSpaces run) :: ·)
termination_by tokens.length
decreasing_by
  · simp
  · have := Span.length_rest_lt _closed; simp only [List.length_cons]; omega
  · exact takeRun_length_lt rfl _run

/-- Whether some parenthesis outside others comes directly after a keyword. -/
def hasArgument (afterKeyword : Bool) (depth : Int) : List Token → Bool
  | [] => false
  | t :: ts =>
    match t.kind with
    | .parenOpen => (afterKeyword && depth == 0) || hasArgument false (depth + 1) ts
    | .parenClose => hasArgument false (depth - 1) ts
    | kind => hasArgument (kind == .keyword) depth ts

/-- The name of a call inside a value, and the tokens after the name. -/
def nestedCall? (tokens : List Token) : Option (Text × List Token) :=
  match tokens.dropWhile (·.isSpace) with
  | name :: gap :: t :: ts =>
    if gap.isSpace && (name.kind == .keyword || name.kind == .value) && Word.isCommand name.text &&
        hasArgument false 0 (name :: gap :: t :: ts) then
      some (name.text, gap :: t :: ts)
    else none
  | _ => none

theorem nestedCall?_length_lt {tokens rest : List Token} {name : Text}
    (h : nestedCall? tokens = some (name, rest)) : rest.length < tokens.length := by
  have hle := (List.dropWhile_sublist (·.isSpace) (l := tokens)).length_le
  simp only [nestedCall?] at h
  split at h
  · next heq =>
    rw [heq] at hle
    split at h
    · cases h; simp only [List.length_cons] at hle ⊢; omega
    · cases h
  · cases h

mutual

/-- The bindings of a call. `seenKeyword` holds after the first one with a keyword, and `count` is
the number of bindings before. -/
def readBindings (seenKeyword : Bool) (count : Nat) (tokens : List Token) :
    Except SyntaxError (List (Binding Value)) :=
  match tokens with
  | [] => .ok []
  | t :: ts =>
    if _space : t.isSpace then readBindings seenKeyword count ts
    else if t.kind = .parenClose then .error (.atToken .unmatchedClose t)
    else
      match _argument : argumentStart? t ts with
      | some (p, us) =>
        let keyword := t.text.upper
        match _closed : Span.of? 0 us with
        | none => .error (.atToken .unclosedParen p (some keyword))
        | some s =>
          match readValue keyword s.inner with
          | .error e => .error e
          | .ok value => (readBindings true (count + 1) s.rest).map (⟨keyword, value⟩ :: ·)
      | none =>
        if seenKeyword then .error (.atToken .positionalAfterKeyword t)
        else
          match _run : takeRun none stopsAtSpace false (t :: ts) with
          | .error e => .error e
          | .ok (run, rest) =>
            (readBindings false (count + 1) rest).map
              (⟨placeholder (count + 1), ofPositional run⟩ :: ·)
termination_by tokens.length
decreasing_by
  · simp
  · have := Span.length_inner_lt _closed
    simp only [argumentStart?_eq _argument, List.length_cons]; omega
  · have := Span.length_rest_lt _closed
    simp only [argumentStart?_eq _argument, List.length_cons]; omega
  · exact takeRun_length_lt (by simpa [stopsAtSpace] using _space) _run

def readValue (keyword : Text) (tokens : List Token) : Except SyntaxError Value :=
  match _nested : nestedCall? tokens with
  | some (name, rest) =>
    (readBindings false 0 rest).map fun bindings => .nested { name := name.upper, bindings }
  | none => (readGroups keyword tokens).map ofGroups
termination_by tokens.length
decreasing_by exact nestedCall?_length_lt _nested

end

end Value

/-- The command whose first token is `name` and whose other tokens are `tokens`; `source` is
shown with a fault. -/
def Command.ofTokens (source : Option Text) (name : Token) (tokens : List Token) :
    Except SyntaxError Command :=
  match Value.readBindings false 0 tokens with
  | .error e => .error (e.within source)
  | .ok bindings => .ok { name := name.text.upper, bindings }

end ControlLanguage
