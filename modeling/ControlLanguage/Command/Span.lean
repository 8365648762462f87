import ControlLanguage.SyntaxError
import ControlLanguage.Command.Basic

/-!
# Spans and runs of tokens

Tokens are grouped by their parentheses. A span is what follows an opening
parenthesis up to the one that closes it; a run is a stretch of tokens in
which every parenthesis is closed.
-/

namespace ControlLanguage

/-- Tokens divided at a closing parenthesis. -/
structure Span where
  inner : List Token
  close : Token
  rest : List Token

namespace Span

def prepend (t : Token) (s : Span) : Span := { s with inner := t :: s.inner }

/-- The span that ends at the first parenthesis which closes none of the tokens before it, after
`depth` others have been closed. -/
def of? : (depth : Nat) → List Token → Option Span
  | _, [] => none
  | depth, t :: ts =>
    match t.kind, depth with
    | .parenClose, 0 => some ⟨[], t, ts⟩
    | .parenClose, d + 1 => (of? d ts).map (prepend t)
    | .parenOpen, d => (of? (d + 1) ts).map (prepend t)
    | _, d => (of? d ts).map (prepend t)

theorem eq_of_of? {depth : Nat} {ts : List Token} {s : Span} (h : of? depth ts = some s) :
    ts = s.inner ++ s.close :: s.rest := by
  induction ts generalizing depth s with
  | nil => simp [of?] at h
  | cons t ts ih =>
    simp only [of?] at h
    split at h
    · cases h; rfl
    all_goals
      obtain ⟨u, hu, rfl⟩ := Option.map_eq_some_iff.1 h
      rw [ih hu]
      rfl

theorem length_rest_lt {depth : Nat} {ts : List Token} {s : Span} (h : of? depth ts = some s) :
    s.rest.length < ts.length := by
  simp only [eq_of_of? h, List.length_append, List.length_cons]; omega

theorem length_inner_lt {depth : Nat} {ts : List Token} {s : Span} (h : of? depth ts = some s) :
    s.inner.length < ts.length := by
  simp only [eq_of_of? h, List.length_append, List.length_cons]; omega

end Span

/-- The run of tokens up to the first one outside parentheses at which it stops, and the rest.
`stops` is told whether the token comes directly after a space. -/
def takeRun (keyword : Option Text) (stops : Bool → Token → Bool) (afterSpace : Bool)
    (tokens : List Token) : Except SyntaxError (List Token × List Token) :=
  match tokens with
  | [] => .ok ([], [])
  | t :: ts =>
    if stops afterSpace t then .ok ([], t :: ts)
    else
      match t.kind with
      | .parenClose => .error (.atToken .unmatchedClose t keyword)
      | .parenOpen =>
        match _closed : Span.of? 0 ts with
        | none => .error (.atToken .unclosedParen t keyword)
        | some s =>
          match takeRun keyword stops false s.rest with
          | .error e => .error e
          | .ok (run, rest) => .ok (t :: s.inner ++ s.close :: run, rest)
      | _ =>
        match takeRun keyword stops t.isSpace ts with
        | .error e => .error e
        | .ok (run, rest) => .ok (t :: run, rest)
termination_by tokens.length
decreasing_by
  · have := Span.length_rest_lt _closed; simp only [List.length_cons]; omega
  · simp

/-- A positional value ends at a space. -/
def stopsAtSpace (_ : Bool) (t : Token) : Bool := t.isSpace

/-- A value among others ends where a parenthesis follows a space. -/
def stopsAtGroup (afterSpace : Bool) (t : Token) : Bool := afterSpace && t.kind == .parenOpen

theorem takeRun_eq_append {keyword : Option Text} {stops : Bool → Token → Bool}
    {afterSpace : Bool} {ts run rest : List Token}
    (h : takeRun keyword stops afterSpace ts = .ok (run, rest)) : ts = run ++ rest := by
  fun_induction takeRun keyword stops afterSpace ts generalizing run rest with
  | case1 => cases h; rfl
  | case2 => cases h; rfl
  | case3 => cases h
  | case4 => cases h
  | case5 => cases h
  | case6 after t ts hs hk s hc run' rest' hr ih =>
    cases h
    simp [Span.eq_of_of? hc, ih hr]
  | case7 => cases h
  | case8 after t ts hs run' rest' hr _ _ ih =>
    cases h
    rw [ih hr]
    rfl

/-- A run that does not stop at its first token has it. -/
theorem takeRun_length_lt {keyword : Option Text} {stops : Bool → Token → Bool}
    {afterSpace : Bool} {t : Token} {ts run rest : List Token} (hs : stops afterSpace t = false)
    (h : takeRun keyword stops afterSpace (t :: ts) = .ok (run, rest)) :
    rest.length < (t :: ts).length := by
  have happ := takeRun_eq_append h
  cases run with
  | cons u us => rw [happ, List.length_append, List.length_cons]; omega
  | nil =>
    rw [takeRun] at h
    simp only [hs, Bool.false_eq_true, ↓reduceIte] at h
    split at h
    · cases h
    · split at h
      · cases h
      · split at h <;> cases h
    · split at h <;> cases h

end ControlLanguage
