import ControlLanguage.Command.OfTokens

/-!
# The grammar of commands

Which tokens make which parameters, said by rules. The rules and the reader
agree: `readBindings_iff` turns a successful reading into a derivation and
back, so that what holds of every reading is proved by induction on
derivations.
-/

namespace ControlLanguage

/-! ## Parentheses -/

/-- How many parentheses are open after some tokens, if none of them closes too many. -/
def openAfter : Nat → List Token → Option Nat
  | d, [] => some d
  | d, t :: ts =>
    match t.kind, d with
    | .parenClose, 0 => none
    | .parenClose, d + 1 => openAfter d ts
    | .parenOpen, d => openAfter (d + 1) ts
    | _, d => openAfter d ts

def Balanced (ts : List Token) : Prop := openAfter 0 ts = some 0

section
variable {t p q : Token} {ts a b : List Token}

theorem openAfter_open (h : t.kind = .parenOpen) (d : Nat) (ts : List Token) :
    openAfter d (t :: ts) = openAfter (d + 1) ts := by
  simp only [openAfter, h]

theorem openAfter_close (h : t.kind = .parenClose) (d : Nat) (ts : List Token) :
    openAfter (d + 1) (t :: ts) = openAfter d ts := by
  simp only [openAfter, h]

theorem openAfter_close_zero (h : t.kind = .parenClose) (ts : List Token) :
    openAfter 0 (t :: ts) = none := by
  simp only [openAfter, h]

theorem openAfter_other (ho : t.kind ≠ .parenOpen) (hc : t.kind ≠ .parenClose) (d : Nat)
    (ts : List Token) : openAfter d (t :: ts) = openAfter d ts := by
  simp only [openAfter]
  split
  · exact absurd ‹_› hc
  · exact absurd ‹_› hc
  · exact absurd ‹_› ho
  · rfl

theorem openAfter_append (d : Nat) (a b : List Token) :
    openAfter d (a ++ b) = (openAfter d a).bind (openAfter · b) := by
  induction a generalizing d with
  | nil => rfl
  | cons t ts ih =>
    rw [List.cons_append]
    by_cases ho : t.kind = .parenOpen
    · rw [openAfter_open ho, openAfter_open ho, ih]
    · by_cases hc : t.kind = .parenClose
      · cases d with
        | zero => rw [openAfter_close_zero hc, openAfter_close_zero hc]; rfl
        | succ d => rw [openAfter_close hc, openAfter_close hc, ih]
      · rw [openAfter_other ho hc, openAfter_other ho hc, ih]

theorem Span.of?_append {d : Nat} (h : openAfter d a = some 0) (hq : q.kind = .parenClose)
    (rest : List Token) : Span.of? d (a ++ q :: rest) = some ⟨a, q, rest⟩ := by
  induction a generalizing d with
  | nil =>
    obtain rfl : d = 0 := by simpa [openAfter] using h
    simp only [List.nil_append, Span.of?, hq]
  | cons t ts ih =>
    rw [List.cons_append]
    unfold Span.of?
    by_cases ho : t.kind = .parenOpen
    · rw [openAfter_open ho] at h
      simp only [ho, ih h]; rfl
    · by_cases hc : t.kind = .parenClose
      · cases d with
        | zero => rw [openAfter_close_zero hc] at h; cases h
        | succ d =>
          rw [openAfter_close hc] at h
          simp only [hc, ih h]; rfl
      · rw [openAfter_other ho hc] at h
        split
        · exact absurd ‹_› hc
        · exact absurd ‹_› hc
        · exact absurd ‹_› ho
        · rw [ih h]; rfl

theorem Span.balanced_of_of? {d : Nat} {s : Span} (h : Span.of? d ts = some s) :
    s.close.kind = .parenClose ∧ openAfter d s.inner = some 0 := by
  induction ts generalizing d s with
  | nil => cases h
  | cons t ts ih =>
    unfold Span.of? at h
    split at h
    · next hc => cases h; exact ⟨hc, rfl⟩
    · next d hc =>
      obtain ⟨u, hu, rfl⟩ := Option.map_eq_some_iff.mp h
      exact ⟨(ih hu).1, by rw [Span.prepend, openAfter_close hc]; exact (ih hu).2⟩
    · next ho =>
      obtain ⟨u, hu, rfl⟩ := Option.map_eq_some_iff.mp h
      exact ⟨(ih hu).1, by rw [Span.prepend, openAfter_open ho]; exact (ih hu).2⟩
    · next d _ _ ho hz hs =>
      obtain ⟨u, hu, rfl⟩ := Option.map_eq_some_iff.mp h
      have hc : t.kind ≠ .parenClose := by
        intro hc
        cases d with
        | zero => exact hz hc rfl
        | succ d => exact hs d hc rfl
      exact ⟨(ih hu).1, by rw [Span.prepend, openAfter_other ho hc]; exact (ih hu).2⟩

end

/-! ## Runs -/

/-- A run of tokens that ends in front of `rest`; `after` holds directly after a space. -/
inductive RunOf (stops : Bool → Token → Bool) : Bool → List Token → List Token → Prop
  | done {after} : RunOf stops after [] []
  | stop {after t ts} : stops after t = true → RunOf stops after [] (t :: ts)
  | atom {after t run rest} : stops after t = false → t.kind ≠ .parenOpen → t.kind ≠ .parenClose →
      RunOf stops t.isSpace run rest → RunOf stops after (t :: run) rest
  | span {after p inner q run rest} : stops after p = false → p.kind = .parenOpen → Balanced inner →
      q.kind = .parenClose → RunOf stops false run rest → RunOf stops after (p :: inner ++ q :: run) rest

theorem runOf_of_takeRun {keyword : Option Text} {stops : Bool → Token → Bool} {after : Bool}
    {ts run rest : List Token} (h : takeRun keyword stops after ts = .ok (run, rest)) :
    RunOf stops after run rest := by
  fun_induction takeRun keyword stops after ts generalizing run rest with
  | case1 => cases h; exact .done
  | case2 after t ts hs => cases h; exact .stop hs
  | case3 => cases h
  | case4 => cases h
  | case5 => cases h
  | case6 after t ts hs hk s hc run' rest' hr ih =>
    cases h
    have hb := Span.balanced_of_of? hc
    exact .span (by simpa using hs) hk hb.2 hb.1 (ih hr)
  | case7 => cases h
  | case8 after t ts hs run' rest' hr ho hc ih =>
    cases h
    exact .atom (by simpa using hs) hc ho (ih hr)

theorem RunOf.takeRun {keyword : Option Text} {stops : Bool → Token → Bool} {after : Bool}
    {run rest : List Token} (h : RunOf stops after run rest) :
    takeRun keyword stops after (run ++ rest) = .ok (run, rest) := by
  induction h with
  | done => rw [List.append_nil, ControlLanguage.takeRun]
  | stop hs => rw [List.nil_append, ControlLanguage.takeRun, if_pos hs]
  | @atom after t run rest hs ho hc _ ih =>
    rw [List.cons_append, ControlLanguage.takeRun, if_neg (by simp [hs])]
    split
    · exact absurd ‹_› hc
    · exact absurd ‹_› ho
    · rw [ih]
  | @span after p inner q run rest hs hp hb hq _ ih =>
    have hspan := Span.of?_append hb hq (run ++ rest)
    rw [List.append_assoc, List.cons_append, List.cons_append, ControlLanguage.takeRun,
      if_neg (by simp [hs])]
    simp only [hp]
    split
    · next h => rw [hspan] at h; cases h
    · next s h => rw [hspan] at h; cases h; rw [ih]

namespace Value

/-! ## Groups -/

/-- The tokens between two parentheses and the groups that they fall into. -/
inductive GroupsOf : List Token → List Value → Prop
  | nil : GroupsOf [] []
  | space {t ts vs} : t.isSpace = true → GroupsOf ts vs → GroupsOf (t :: ts) vs
  | span {p inner q rest vs} : p.kind = .parenOpen → Balanced inner → q.kind = .parenClose →
      GroupsOf rest vs → GroupsOf (p :: inner ++ q :: rest) (.expression inner true :: vs)
  | run {t run rest vs} : t.isSpace = false → t.kind ≠ .parenOpen →
      RunOf stopsAtGroup false (t :: run) rest → GroupsOf rest vs →
      GroupsOf (t :: run ++ rest) (ofRun (dropTrailingSpaces (t :: run)) :: vs)

theorem map_eq_ok {ε α β : Type} {x : Except ε α} {f : α → β} {b : β} (h : x.map f = .ok b) :
    ∃ a, x = .ok a ∧ f a = b := by
  cases x with
  | error e => cases h
  | ok a => exact ⟨a, rfl, Except.ok.inj h⟩

theorem groupsOf_of_readGroups {keyword : Text} {ts : List Token} {vs : List Value}
    (h : readGroups keyword ts = .ok vs) : GroupsOf ts vs := by
  fun_induction readGroups keyword ts generalizing vs with
  | case1 => cases h; exact .nil
  | case2 t ts hs ih => exact .space hs (ih h)
  | case3 => cases h
  | case4 t ts hs ho s hc ih =>
    obtain ⟨ws, hw, rfl⟩ := map_eq_ok h
    have hb := Span.balanced_of_of? hc
    rw [Span.eq_of_of? hc]
    exact .span ho hb.2 hb.1 (ih hw)
  | case5 => cases h
  | case6 t ts hs ho run rest hr ih =>
    obtain ⟨ws, hw, rfl⟩ := map_eq_ok h
    have happ := takeRun_eq_append hr
    have hrun := runOf_of_takeRun hr
    cases run with
    | nil =>
      cases hrun with
      | done => cases happ
      | stop hstop => simp [stopsAtGroup] at hstop
    | cons u us =>
      rw [List.cons_append, List.cons.injEq] at happ
      obtain ⟨rfl, rfl⟩ := happ
      exact .run (by simpa using hs) ho hrun (ih hw)

theorem GroupsOf.readGroups {keyword : Text} {ts : List Token} {vs : List Value} (h : GroupsOf ts vs) :
    readGroups keyword ts = .ok vs := by
  induction h with
  | nil => rw [Value.readGroups]
  | space hs _ ih => rw [Value.readGroups, if_pos hs, ih]
  | @span p inner q rest vs hp hb hq _ ih =>
    have hspan := Span.of?_append hb hq rest
    rw [List.cons_append, Value.readGroups, if_neg (by simp [Token.isSpace, hp]), if_pos hp]
    split
    · next h => rw [hspan] at h; cases h
    · next s h => rw [hspan] at h; cases h; rw [ih]; rfl
  | @run t run rest vs hs ho hr _ ih =>
    have htake : ControlLanguage.takeRun (some keyword) stopsAtGroup false (t :: run ++ rest) = _ := hr.takeRun
    rw [List.cons_append] at htake ⊢
    rw [Value.readGroups, if_neg (by simp [hs]), if_neg ho]
    split
    · next h => rw [htake] at h; cases h
    · next h => rw [htake] at h; cases h; rw [ih]; rfl

/-! ## Bindings -/

/-- The tokens of a call after its name and the bindings that they make. `seen` holds after a
keyword, and `n` bindings have come before. -/
inductive BindingsOf : Bool → Nat → List Token → List (Binding Value) → Prop
  | nil {seen n} : BindingsOf seen n [] []
  | space {seen n t ts bs} : t.isSpace = true → BindingsOf seen n ts bs → BindingsOf seen n (t :: ts) bs
  | groups {seen n t p inner q rest vs bs} : t.kind = .keyword → p.kind = .parenOpen → Balanced inner →
      q.kind = .parenClose → nestedCall? inner = none → GroupsOf inner vs →
      BindingsOf true (n + 1) rest bs →
      BindingsOf seen n (t :: p :: (inner ++ q :: rest)) (⟨t.text.upper, ofGroups vs⟩ :: bs)
  | call {seen n t p inner q rest name us cs bs} : t.kind = .keyword → p.kind = .parenOpen →
      Balanced inner → q.kind = .parenClose → nestedCall? inner = some (name, us) →
      BindingsOf false 0 us cs → BindingsOf true (n + 1) rest bs →
      BindingsOf seen n (t :: p :: (inner ++ q :: rest))
        (⟨t.text.upper, .nested { name := name.upper, bindings := cs }⟩ :: bs)
  | positional {n t run rest bs} : t.isSpace = false → argumentStart? t (run ++ rest) = none →
      RunOf stopsAtSpace false (t :: run) rest → BindingsOf false (n + 1) rest bs →
      BindingsOf false n (t :: run ++ rest) (⟨placeholder (n + 1), ofPositional (t :: run)⟩ :: bs)

theorem argumentStart?_eq_some {t p : Token} {ts us : List Token}
    (h : argumentStart? t ts = some (p, us)) : t.kind = .keyword ∧ p.kind = .parenOpen ∧ ts = p :: us := by
  refine ⟨?_, ?_, argumentStart?_eq h⟩
  all_goals
    cases ts with
    | nil => cases h
    | cons q ts =>
      simp only [argumentStart?] at h
      split at h
      · next hk => cases h; simp [hk]
      · cases h

theorem argumentStart?_cons {t p : Token} (ht : t.kind = .keyword) (hp : p.kind = .parenOpen)
    (us : List Token) : argumentStart? t (p :: us) = some (p, us) := by
  rw [argumentStart?, if_pos ⟨ht, hp⟩]

theorem readValue_cases {keyword : Text} {ts : List Token} {v : Value} (h : readValue keyword ts = .ok v) :
    (∃ name us cs, nestedCall? ts = some (name, us) ∧ readBindings false 0 us = .ok cs ∧
      v = .nested { name := name.upper, bindings := cs }) ∨
    (∃ vs, nestedCall? ts = none ∧ GroupsOf ts vs ∧ v = ofGroups vs) := by
  rw [readValue] at h
  split at h
  · next name us hn =>
    obtain ⟨cs, hcs, rfl⟩ := map_eq_ok h
    exact .inl ⟨name, us, cs, hn, hcs, rfl⟩
  · next hn =>
    obtain ⟨vs, hvs, rfl⟩ := map_eq_ok h
    exact .inr ⟨vs, hn, groupsOf_of_readGroups hvs, rfl⟩

theorem bindingsOf_of_readBindings {seen : Bool} {n : Nat} {ts : List Token} {bs : List (Binding Value)}
    (h : readBindings seen n ts = .ok bs) : BindingsOf seen n ts bs := by
  induction hlen : ts.length using Nat.strongRecOn generalizing seen n ts bs with
  | _ len ih =>
    subst hlen
    cases ts with
    | nil => rw [readBindings] at h; cases h; exact .nil
    | cons t ts =>
      rw [readBindings] at h
      split at h
      · next hs => exact .space hs (ih _ (by simp) h rfl)
      · next hs =>
        split at h
        · cases h
        · split at h
          · next p us harg =>
            obtain ⟨ht, hp, rfl⟩ := argumentStart?_eq_some harg
            split at h
            · cases h
            · next s hc =>
              have hb := Span.balanced_of_of? hc
              have hi := Span.length_inner_lt hc
              have hr := Span.length_rest_lt hc
              simp only at h
              split at h
              · cases h
              · next v hv =>
                obtain ⟨cs, hcs, rfl⟩ := map_eq_ok h
                have hrest := ih s.rest.length (by simp only [List.length_cons]; omega) hcs rfl
                rw [Span.eq_of_of? hc]
                rcases readValue_cases hv with ⟨name, ws, ds, hn, hds, rfl⟩ | ⟨vs, hn, hvs, rfl⟩
                · have hu := nestedCall?_length_lt hn
                  exact .call ht hp hb.2 hb.1 hn
                    (ih ws.length (by simp only [List.length_cons]; omega) hds rfl) hrest
                · exact .groups ht hp hb.2 hb.1 hn hvs hrest
          · next harg =>
            split at h
            · cases h
            · next hseen =>
              split at h
              · cases h
              · next run rest hr =>
                obtain ⟨cs, hcs, rfl⟩ := map_eq_ok h
                have happ := takeRun_eq_append hr
                have hrun := runOf_of_takeRun hr
                have hlt := takeRun_length_lt (by simpa [stopsAtSpace] using hs) hr
                cases run with
                | nil => rw [happ] at hlt; simp at hlt
                | cons u us =>
                  rw [List.cons_append, List.cons.injEq] at happ
                  obtain ⟨rfl, rfl⟩ := happ
                  rw [Bool.not_eq_true] at hseen hs
                  subst hseen
                  exact .positional hs harg hrun (ih _ hlt hcs rfl)

theorem readBindings_argument {seen : Bool} {n : Nat} {t p : Token} {us : List Token} {s : Span}
    (ht : t.kind = .keyword) (hp : p.kind = .parenOpen) (hs : Span.of? 0 us = some s) :
    readBindings seen n (t :: p :: us) =
      match readValue t.text.upper s.inner with
      | .error e => .error e
      | .ok v => (readBindings true (n + 1) s.rest).map (⟨t.text.upper, v⟩ :: ·) := by
  rw [readBindings, dif_neg (by simp [Token.isSpace, ht]), if_neg (by simp [ht])]
  split
  · next harg =>
    rw [argumentStart?_cons ht hp] at harg; cases harg
    split
    · next hc => rw [hs] at hc; cases hc
    · next hc => rw [hs] at hc; cases hc; rfl
  · next harg => rw [argumentStart?_cons ht hp] at harg; cases harg

theorem BindingsOf.readBindings {seen : Bool} {n : Nat} {ts : List Token} {bs : List (Binding Value)}
    (h : BindingsOf seen n ts bs) : readBindings seen n ts = .ok bs := by
  induction h with
  | nil => rw [Value.readBindings]
  | space hs _ ih => rw [Value.readBindings, dif_pos hs, ih]
  | @groups seen n t p inner q rest vs bs ht hp hb hq hn hg _ ih =>
    have hv : readValue t.text.upper inner = .ok (ofGroups vs) := by
      rw [readValue]
      split
      · next h => rw [hn] at h; cases h
      · rw [hg.readGroups]; rfl
    rw [readBindings_argument ht hp (Span.of?_append hb hq rest)]
    simp only [hv, ih]; rfl
  | @call seen n t p inner q rest name us cs bs ht hp hb hq hn _ _ ihc ih =>
    have hv : readValue t.text.upper inner = .ok (.nested { name := name.upper, bindings := cs }) := by
      rw [readValue]
      split
      · next h => rw [hn] at h; cases h; rw [ihc]; rfl
      · next h => rw [hn] at h; cases h
    rw [readBindings_argument ht hp (Span.of?_append hb hq rest)]
    simp only [hv, ih]; rfl
  | @positional n t run rest bs hs harg hr _ ih =>
    have htake : ControlLanguage.takeRun none stopsAtSpace false (t :: run ++ rest) = _ := hr.takeRun
    have hc : t.kind ≠ .parenClose := by
      cases hr with
      | atom _ _ hc _ => exact hc
      | span _ hp _ _ _ => rw [hp]; decide
    rw [List.cons_append] at htake ⊢
    rw [Value.readBindings, dif_neg (by simp [hs]), if_neg hc]
    split
    · next h => rw [harg] at h; cases h
    · split
      · next h => cases h
      · split
        · next h => rw [htake] at h; cases h
        · next h => rw [htake] at h; cases h; rw [ih]; rfl

/-- The reader follows the grammar, and finds every derivation. -/
theorem readBindings_iff {seen : Bool} {n : Nat} {ts : List Token} {bs : List (Binding Value)} :
    readBindings seen n ts = .ok bs ↔ BindingsOf seen n ts bs :=
  ⟨bindingsOf_of_readBindings, BindingsOf.readBindings⟩

end Value

end ControlLanguage
