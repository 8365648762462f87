import ControlLanguage.Proofs.Grammar

/-!
# Grouping by kinds

Which tokens belong together is decided by their kinds. Tokens that are
changed one by one, and none of them in its kind, fall into the same spans,
runs and arguments.
-/

namespace ControlLanguage

/-! ## One step of the reader -/

section
variable {keyword : Text} {t : Token} {ts : List Token}

theorem takeRun_cons (keyword : Option Text) (stops : Bool → Token → Bool) (after : Bool) (t : Token)
    (ts : List Token) :
    takeRun keyword stops after (t :: ts) =
      if stops after t then .ok ([], t :: ts)
      else if t.kind = .parenClose then .error (.atToken .unmatchedClose t keyword)
      else if t.kind = .parenOpen then
        match Span.of? 0 ts with
        | none => .error (.atToken .unclosedParen t keyword)
        | some s => (takeRun keyword stops false s.rest).map fun r => (t :: s.inner ++ s.close :: r.1, r.2)
      else (takeRun keyword stops t.isSpace ts).map fun r => (t :: r.1, r.2) := by
  rw [takeRun]
  split
  · rfl
  · split
    · next hk => rw [if_pos hk]
    · next hk =>
      rw [if_neg (by simp [hk]), if_pos hk]
      split
      · next hs => rw [hs]
      · next s hs =>
        simp only [hs]
        cases takeRun keyword stops false s.rest <;> rfl
    · next hc ho =>
      rw [if_neg hc, if_neg ho]
      cases takeRun keyword stops t.isSpace ts <;> rfl

namespace Value

theorem readGroups_cons (keyword : Text) (t : Token) (ts : List Token) : readGroups keyword (t :: ts) =
    if t.isSpace then readGroups keyword ts
    else if t.kind = .parenOpen then
      match Span.of? 0 ts with
      | none => .error (.atToken .unclosedParen t (some keyword))
      | some s => (readGroups keyword s.rest).map (.expression s.inner true :: ·)
    else (takeRun (some keyword) stopsAtGroup false (t :: ts)).bind fun r =>
      (readGroups keyword r.2).map (ofRun (dropTrailingSpaces r.1) :: ·) := by
  rw [readGroups]
  split
  · rfl
  · split
    · split
      · next hs => rw [hs]
      · next s hs => rw [hs]
    · split
      · next hr => rw [hr]; rfl
      · next hr => rw [hr]; rfl

theorem readBindings_cons (seen : Bool) (n : Nat) (t : Token) (ts : List Token) : readBindings seen n (t :: ts) =
    if t.isSpace then readBindings seen n ts
    else if t.kind = .parenClose then .error (.atToken .unmatchedClose t)
    else
      match argumentStart? t ts with
      | some (p, us) =>
        match Span.of? 0 us with
        | none => .error (.atToken .unclosedParen p (some t.text.upper))
        | some s => (readValue t.text.upper s.inner).bind fun value =>
          (readBindings true (n + 1) s.rest).map (⟨t.text.upper, value⟩ :: ·)
      | none =>
        if seen then .error (.atToken .positionalAfterKeyword t)
        else (takeRun none stopsAtSpace false (t :: ts)).bind fun r =>
          (readBindings false (n + 1) r.2).map (⟨placeholder (n + 1), ofPositional r.1⟩ :: ·) := by
  rw [readBindings]
  split
  · rfl
  · split
    · rfl
    · split
      · next ha =>
        simp only [ha]
        split
        · next hc => simp only [hc]
        · next s hc =>
          simp only [hc]
          cases readValue t.text.upper s.inner <;> rfl
      · next ha =>
        simp only [ha]
        split
        · rfl
        · split
          · next hr => rw [hr]; rfl
          · next hr => rw [hr]; rfl

theorem readValue_eq (keyword : Text) (ts : List Token) : readValue keyword ts =
    match nestedCall? ts with
    | some (name, rest) => (readBindings false 0 rest).map fun bs => .nested { name := name.upper, bindings := bs }
    | none => (readGroups keyword ts).map ofGroups := by
  rw [readValue]
  split
  · next hn => rw [hn]
  · next hn => rw [hn]

end Value

end

/-! ## Tokens of the same kinds -/

section
variable {f : Token → Token} (hf : ∀ t, (f t).kind = t.kind)
include hf

theorem isSpace_of_kinds (t : Token) : (f t).isSpace = t.isSpace := by
  rw [Token.isSpace, hf, Token.isSpace]

theorem openAfter_map (d : Nat) (ts : List Token) : openAfter d (ts.map f) = openAfter d ts := by
  induction ts generalizing d with
  | nil => rfl
  | cons t ts ih => simp only [List.map_cons, openAfter, hf, ih]

theorem Span.of?_map (d : Nat) (ts : List Token) : Span.of? d (ts.map f) =
    (Span.of? d ts).map fun s => ⟨s.inner.map f, f s.close, s.rest.map f⟩ := by
  induction ts generalizing d with
  | nil => rfl
  | cons t ts ih =>
    rw [List.map_cons]
    unfold Span.of?
    rw [hf]
    split
    · rfl
    all_goals
      rw [ih, Option.map_map, Option.map_map]; rfl

theorem argumentStart?_map (t : Token) (ts : List Token) :
    argumentStart? (f t) (ts.map f) = (argumentStart? t ts).map fun p => (f p.1, p.2.map f) := by
  cases ts with
  | nil => rfl
  | cons p ts =>
    rw [List.map_cons, argumentStart?, argumentStart?, hf, hf]
    split <;> rfl

theorem takeRun_map (hp : ∀ t, (f t).position = t.position) (stops : Bool → Token → Bool)
    (hs : ∀ b t, stops b (f t) = stops b t) (keyword : Option Text) (after : Bool) (ts : List Token) :
    takeRun keyword stops after (ts.map f) = (takeRun keyword stops after ts).map fun r =>
      (r.1.map f, r.2.map f) := by
  have herror : ∀ reason t, SyntaxError.atToken reason (f t) keyword = .atToken reason t keyword := by
    intro reason t
    rw [SyntaxError.atToken, hp, SyntaxError.atToken]
  induction hn : ts.length using Nat.strongRecOn generalizing after ts with
  | _ n ih =>
    subst hn
    cases ts with
    | nil => rw [List.map_nil, takeRun]; rfl
    | cons t ts =>
      rw [List.map_cons, takeRun_cons, takeRun_cons, hs, hf, herror, herror, Span.of?_map hf, isSpace_of_kinds hf]
      split
      · rfl
      · split
        · rfl
        · split
          · cases hspan : Span.of? 0 ts with
            | none => rfl
            | some s =>
              have hlt := Span.length_rest_lt hspan
              have hrest := ih s.rest.length (by simp only [List.length_cons]; omega) false s.rest rfl
              simp only [Option.map_some, hrest]
              cases takeRun keyword stops false s.rest with
              | error e => rfl
              | ok r => simp [Except.map]
          · rw [ih ts.length (by simp) _ ts rfl]
            cases takeRun keyword stops t.isSpace ts <;> rfl

namespace Value

section
variable {φ : Value → Value} (hscalar : ∀ t, φ (.scalar t.text) = .scalar (f t).text)
  (hexpression : ∀ ts w, φ (.expression ts w) = .expression (ts.map f) w)
include hscalar hexpression

theorem ofRun_map (ts : List Token) : ofRun (ts.map f) = φ (ofRun ts) := by
  rcases ts with _ | ⟨t, _ | ⟨u, us⟩⟩
  · exact (hexpression [] false).symm
  · simp only [List.map_cons, List.map_nil, ofRun, hf]
    split
    · exact (hscalar t).symm
    · exact (hexpression [t] false).symm
  · exact (hexpression (t :: u :: us) false).symm

theorem ofPositional_map (ts : List Token) : ofPositional (ts.map f) = φ (ofPositional ts) := by
  have hr := ofRun_map hf hscalar hexpression ts
  cases ts with
  | nil => exact hr
  | cons t ts =>
    rw [List.map_cons] at hr ⊢
    simp only [ofPositional, hf, Span.of?_map hf, hr]
    rcases hs : Span.of? 0 ts with _ | ⟨inner, q, _ | ⟨u, us⟩⟩
    · cases t.kind <;> rfl
    · cases t.kind with
      | parenOpen => exact (hexpression inner true).symm
      | _ => rfl
    · cases t.kind <;> rfl

end

theorem dropTrailingSpaces_map (ts : List Token) :
    dropTrailingSpaces (ts.map f) = (dropTrailingSpaces ts).map f := by
  rw [dropTrailingSpaces, ← List.map_reverse, List.dropWhile_map, ← List.map_reverse, dropTrailingSpaces,
    show (fun t : Token => t.isSpace) ∘ f = fun t => t.isSpace from funext (isSpace_of_kinds hf)]

theorem hasArgument_map (after : Bool) (d : Int) (ts : List Token) :
    hasArgument after d (ts.map f) = hasArgument after d ts := by
  induction ts generalizing after d with
  | nil => rfl
  | cons t ts ih => simp only [List.map_cons, hasArgument, hf, ih]

theorem nestedCall?_map {g : Text → Text} (ht : ∀ t, (f t).text = g t.text) {ts : List Token}
    (hw : ∀ t ∈ ts, Word.isCommand (g t.text) = Word.isCommand t.text) :
    nestedCall? (ts.map f) = (nestedCall? ts).map fun p => (g p.1, p.2.map f) := by
  have hsub : ∀ t ∈ ts.dropWhile (·.isSpace), t ∈ ts := fun t h => (List.dropWhile_sublist _).subset h
  rw [nestedCall?, nestedCall?, List.dropWhile_map,
    show (fun t : Token => t.isSpace) ∘ f = fun t => t.isSpace from funext (isSpace_of_kinds hf)]
  generalize ts.dropWhile (fun t => t.isSpace) = us at hsub
  rcases us with _ | ⟨name, _ | ⟨gap, _ | ⟨t, us⟩⟩⟩
  · rfl
  · rfl
  · rfl
  · have ha := hasArgument_map hf false 0 (name :: gap :: t :: us)
    have hname := hw name (hsub name (List.mem_cons_self ..))
    simp only [List.map_cons] at ha ⊢
    simp only [isSpace_of_kinds hf, hf, ht, ha, hname]
    split <;> rfl

end Value

end

end ControlLanguage
