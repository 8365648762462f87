import ControlLanguage.Proofs.Kinds
import ControlLanguage.Proofs.Spelling.Command
import ControlLanguage.Proofs.Token.Depth

/-!
# The faults of a reading

A reading breaks off at a parenthesis without a partner, or at a positional
value behind a keyword. Inside of a pair of parentheses only the second can
happen, so the two faults of parentheses are told by the text alone:
`Command.ofTokens_fault`.
-/

namespace ControlLanguage

/-- A fault and the token of `ts` where it is found. -/
inductive Fault : List Token → SyntaxError → Prop
  | late {ts t} : t ∈ ts → Fault ts (.atToken .positionalAfterKeyword t)
  | unclosed {front p later keyword} : p.kind = .parenOpen → Span.of? 0 later = none →
      Fault (front ++ p :: later) (.atToken .unclosedParen p keyword)
  | unmatched {front p later keyword} : Balanced front → p.kind = .parenClose →
      Fault (front ++ p :: later) (.atToken .unmatchedClose p keyword)

section
variable {ts us front later : List Token} {t p : Token} {e : SyntaxError}

/-! ## Parts of the tokens -/

theorem Fault.append (hb : Balanced front) (h : Fault ts e) : Fault (front ++ ts) e := by
  cases h with
  | late ht => exact .late (List.mem_append_right _ ht)
  | unclosed hp hs =>
    rw [← List.append_assoc]
    exact .unclosed hp hs
  | unmatched hf hp =>
    rw [← List.append_assoc]
    exact .unmatched (hb.append hf) hp

theorem Fault.cons (ho : t.kind ≠ .parenOpen) (hc : t.kind ≠ .parenClose) (h : Fault ts e) : Fault (t :: ts) e :=
  Fault.append (by rw [Balanced, openAfter_other ho hc]; rfl : Balanced [t]) h

/-- Among tokens that leave fewer parentheses open than they find, one closes the last of these. -/
theorem Span.of?_isSome_of_openAfter {d k e : Nat} (h : openAfter (d + 1 + k) ts = some e) (he : e ≤ k) :
    (Span.of? d ts).isSome = true := by
  induction ts generalizing d with
  | nil =>
    have := Option.some.inj h
    omega
  | cons t ts ih =>
    by_cases ho : t.kind = .parenOpen
    · rw [openAfter_open ho, Nat.add_right_comm (d + 1) k 1] at h
      rw [Span.of?_open ho, Option.isSome_map]
      exact ih h
    · by_cases hc : t.kind = .parenClose
      · cases d with
        | zero => simp [Span.of?, hc]
        | succ d =>
          rw [Nat.add_right_comm, openAfter_close hc] at h
          rw [Span.of?_close hc, Option.isSome_map]
          exact ih h
      · rw [openAfter_other ho hc] at h
        rw [Span.of?_other ho hc, Option.isSome_map]
        exact ih h

theorem Fault.of_balanced (h : Fault ts e) (hb : Balanced ts) :
    ∃ t ∈ ts, e = .atToken .positionalAfterKeyword t := by
  cases h with
  | late ht => exact ⟨_, ht, rfl⟩
  | unclosed hp hs =>
    rw [Balanced, openAfter_append] at hb
    obtain ⟨k, -, hk⟩ := Option.bind_eq_some_iff.mp hb
    rw [openAfter_open hp, Nat.add_comm] at hk
    have := Span.of?_isSome_of_openAfter (d := 0) (by rwa [Nat.zero_add]) (Nat.zero_le k)
    rw [hs] at this
    cases this
  | unmatched hf hp =>
    rw [Balanced, openAfter_append, hf, Option.bind_some, openAfter_close_zero hp] at hb
    cases hb

theorem Fault.behind {s : Span} (hp : p.kind = .parenOpen) (hs : Span.of? 0 ts = some s) (h : Fault s.rest e) :
    Fault (p :: ts) e := by
  obtain ⟨hq, hb⟩ := Span.balanced_of_of? hs
  have hpair : Balanced (p :: s.inner ++ [s.close]) := Balanced.span hp hb hq rfl
  have hts : p :: ts = p :: s.inner ++ [s.close] ++ s.rest := by
    rw [Span.eq_of_of? hs]; simp
  rw [hts]
  exact h.append hpair

theorem Fault.between {s : Span} (hs : Span.of? 0 ts = some s) (h : Fault s.inner e) : Fault (p :: ts) e := by
  obtain ⟨t, ht, rfl⟩ := h.of_balanced (Span.balanced_of_of? hs).2
  rw [Span.eq_of_of? hs]
  exact .late (List.mem_cons_of_mem _ (List.mem_append_left _ ht))

/-! ## The readers -/

theorem takeRun_fault {keyword : Option Text} {stops : Bool → Token → Bool} {after : Bool}
    (h : takeRun keyword stops after ts = .error e) : Fault ts e := by
  fun_induction takeRun keyword stops after ts generalizing e with
  | case1 => cases h
  | case2 => cases h
  | case3 after t ts hs hk =>
    cases h
    exact show Fault ([] ++ t :: ts) _ from .unmatched rfl hk
  | case4 after t ts hs hk hc =>
    cases h
    exact show Fault ([] ++ t :: ts) _ from .unclosed hk hc
  | case5 after t ts hs hk s hc e' hr ih =>
    cases h
    exact (ih hr).behind hk hc
  | case6 => cases h
  | case7 after t ts hs e' hr ho hc ih =>
    cases h
    exact (ih hr).cons hc ho
  | case8 => cases h

namespace Value

theorem map_eq_error {α β : Type} {x : Except SyntaxError α} {f : α → β} (h : x.map f = .error e) :
    x = .error e := by
  cases x with
  | error e' => cases h; rfl
  | ok a => cases h

theorem bind_eq_error {α β : Type} {x : Except SyntaxError α} {f : α → Except SyntaxError β}
    (h : x.bind f = .error e) :
    x = .error e ∨ ∃ a, x = .ok a ∧ f a = .error e := by
  cases x with
  | error e' => cases h; exact .inl rfl
  | ok a => exact .inr ⟨a, rfl, h⟩

theorem readGroups_fault {keyword : Text} (h : readGroups keyword ts = .error e) : Fault ts e := by
  fun_induction readGroups keyword ts generalizing e with
  | case1 => cases h
  | case2 t ts hs ih =>
    have hk := Token.isSpace_iff.mp hs
    exact (ih h).cons (by rw [hk]; decide) (by rw [hk]; decide)
  | case3 t ts hs ho hc =>
    cases h
    exact show Fault ([] ++ t :: ts) _ from .unclosed ho hc
  | case4 t ts hs ho s hc ih => exact (ih (map_eq_error h)).behind ho hc
  | case5 t ts hs ho e' hr =>
    cases h
    exact takeRun_fault hr
  | case6 t ts hs ho run rest hr ih =>
    rw [takeRun_eq_append hr]
    exact (ih (map_eq_error h)).append (runOf_of_takeRun hr).balanced

theorem readValue_fault {keyword : Text}
    (hcall : ∀ us : List Token, us.length < ts.length → ∀ e, readBindings false 0 us = .error e → Fault us e)
    (h : readValue keyword ts = .error e) : Fault ts e := by
  rw [readValue_eq] at h
  split at h
  · next name us hn =>
    have hlt := nestedCall?_length_lt hn
    obtain ⟨sp, t, rfl, hsp, -, hk, -⟩ := nestedCall?_split hn
    have hname : t.kind ≠ .parenOpen ∧ t.kind ≠ .parenClose := by
      rcases hk with hk | hk <;> rw [hk] <;> decide
    exact ((hcall us hlt e (map_eq_error h)).cons hname.1 hname.2).append (openAfter_spaces hsp 0)
  · exact readGroups_fault (map_eq_error h)

theorem readBindings_fault {seen : Bool} {n : Nat} (h : readBindings seen n ts = .error e) : Fault ts e := by
  induction hlen : ts.length using Nat.strongRecOn generalizing seen n ts e with
  | _ len ih =>
    subst hlen
    cases ts with
    | nil => rw [readBindings] at h; cases h
    | cons t ts =>
      have hshorter : ∀ {us : List Token}, us.length < (t :: ts).length → ∀ {seen n e},
          readBindings seen n us = .error e → Fault us e := fun hlt _ _ _ h => ih _ hlt h rfl
      rw [readBindings_cons] at h
      split at h
      · next hs =>
        have hk := Token.isSpace_iff.mp hs
        exact (hshorter (by simp) h).cons (by rw [hk]; decide) (by rw [hk]; decide)
      · next hs =>
        split at h
        · next hc =>
          cases h
          exact show Fault ([] ++ t :: ts) _ from .unmatched rfl hc
        · split at h
          · next p us harg =>
            obtain ⟨ht, hp, rfl⟩ := argumentStart?_eq_some harg
            have hname : t.kind ≠ .parenOpen ∧ t.kind ≠ .parenClose := by rw [ht]; decide
            split at h
            · next hn =>
              cases h
              exact show Fault ([t] ++ p :: us) _ from .unclosed hp hn
            · next s hc =>
              refine Fault.cons hname.1 hname.2 ?_
              rcases bind_eq_error h with h | ⟨v, -, h⟩
              · have hlt := Span.length_inner_lt hc
                have hvalue : Fault s.inner e := readValue_fault (fun ws hws e he => hshorter (by simp; omega) he) h
                exact hvalue.between hc
              · have hlt := Span.length_rest_lt hc
                exact (hshorter (by simp; omega) (map_eq_error h)).behind hp hc
          · next harg =>
            split at h
            · cases h
              exact .late (List.mem_cons_self ..)
            · rcases bind_eq_error h with h | ⟨⟨run, rest⟩, hr, h⟩
              · exact takeRun_fault h
              · have happ := takeRun_eq_append hr
                have hlt := takeRun_length_lt (by simpa [stopsAtSpace] using hs) hr
                rw [happ]
                exact (hshorter hlt (map_eq_error h)).append (runOf_of_takeRun hr).balanced

end Value

end

/-! ## Commands -/

/-- What the text shows where a fault is reported: an opening parenthesis without a partner, or the first closing
one that has none. A positional value behind a keyword may stand anywhere. -/
inductive FaultIn (text : Text) (e : SyntaxError) : Prop
  | late : e.reason = .positionalAfterKeyword → FaultIn text e
  | unclosed (n : Nat) : e.reason = .unclosedParen → e.location.position = some (n : Int) →
      text[n]? = some '(' → closingParen? text n = none → FaultIn text e
  | unmatched (n : Nat) : e.reason = .unmatchedClose → e.location.position = some (n : Int) →
      text[n]? = some ')' → ((marks text).find? (·.depth < 0)).map (·.index) = some n → FaultIn text e

theorem FaultIn.within {text : Text} {e : SyntaxError} (h : FaultIn text e) (source : Option Text) :
    FaultIn text (e.within source) := by
  cases h with
  | late hr => exact .late hr
  | unclosed n hr hp hn hc => exact .unclosed n hr hp hn hc
  | unmatched n hr hp hn hf => exact .unmatched n hr hp hn hf

theorem Fault.faultIn {text : Text} {name : Token} {tokens : List Token} {e : SyntaxError}
    (htext : Token.ofText text = name :: tokens) (hname : Balanced [name]) (h : Fault tokens e) :
    FaultIn text e := by
  cases h with
  | late => exact .late rfl
  | @unclosed front p later keyword hp hs =>
    have hsplit : Token.ofText text = (name :: front) ++ p :: later := htext
    obtain ⟨n, hpos, hn, hclose⟩ := Token.closingParen?_of_open hsplit hp
    rw [hs] at hclose
    exact .unclosed n rfl (congrArg some hpos) hn (Option.map_eq_none_iff.mp hclose)
  | @unmatched front p later keyword hf hp =>
    have hsplit : Token.ofText text = (name :: front) ++ p :: later := htext
    obtain ⟨n, hpos, hn, hfirst⟩ := Token.find?_depth_neg hsplit (hname.append hf) hp
    exact .unmatched n rfl (congrArg some hpos) hn hfirst

theorem exists_fault_of_ofTokens {source : Option Text} {name : Token} {tokens : List Token} {e : SyntaxError}
    (h : Command.ofTokens source name tokens = .error e) : ∃ e', Fault tokens e' ∧ e = e'.within source := by
  rw [Command.ofTokens] at h
  split at h
  · next e' he =>
    cases h
    exact ⟨e', Value.readBindings_fault he, rfl⟩
  · cases h

/-- Which faults a command text can have: if its parentheses are balanced, a positional value behind a keyword and
no other; and where a parenthesis is at fault, the text has no partner for it at the place that is reported. -/
theorem Command.ofTokens_fault {source source' : Option Text} {text : Text} {name : Token} {tokens : List Token}
    (h : Token.check source (Token.ofText text) = .ok (name, tokens)) :
    (balancedParens text = true → (∃ c, ofTokens source' name tokens = .ok c) ∨
      ∃ e, ofTokens source' name tokens = .error e ∧ e.reason = .positionalAfterKeyword) ∧
    (balancedParens text = false → ∃ e, ofTokens source' name tokens = .error e) ∧
    ∀ e, ofTokens source' name tokens = .error e → FaultIn text e := by
  obtain ⟨htokens, hcommand, -⟩ := check_eq_ok_iff.mp h
  have hkind : name.kind ≠ .parenOpen ∧ name.kind ≠ .parenClose := by rw [hcommand]; decide
  have hname : Balanced [name] := by rw [Balanced, openAfter_other hkind.1 hkind.2]; rfl
  have hbalanced : Balanced tokens ↔ balancedParens text = true := by
    rw [← Token.balanced_ofText_iff, htokens, Balanced, Balanced, openAfter_other hkind.1 hkind.2]
  refine ⟨fun hb => ?_, fun hb => ?_, fun e he => ?_⟩
  · cases hread : ofTokens source' name tokens with
    | ok c => exact .inl ⟨c, rfl⟩
    | error e =>
      obtain ⟨e', hfault, rfl⟩ := exists_fault_of_ofTokens hread
      obtain ⟨t, -, rfl⟩ := hfault.of_balanced (hbalanced.mpr hb)
      exact .inr ⟨_, rfl, rfl⟩
  · cases hread : ofTokens source' name tokens with
    | ok c =>
      obtain ⟨hbs, -⟩ := ofTokens_eq_ok_iff.mp hread
      rw [hbalanced.mp hbs.balanced] at hb
      cases hb
    | error e => exact ⟨e, rfl⟩
  · obtain ⟨e', hfault, rfl⟩ := exists_fault_of_ofTokens he
    exact (hfault.faultIn htokens hname).within source'

/-- The only closing parenthesis outside of literals is the partner of the second one, so the first stays open. -/
theorem Command.ofTokens_fault_literal : ∃ e, ofTokens none ⟨.command, "CMD".toList, 0⟩
      ((Token.ofText "CMD A(B (C ')')".toList).drop 1) = .error e ∧ FaultIn "CMD A(B (C ')')".toList e := by
  have hcheck : Token.check none (Token.ofText "CMD A(B (C ')')".toList) =
      .ok (⟨.command, "CMD".toList, 0⟩, (Token.ofText "CMD A(B (C ')')".toList).drop 1) := by
    with_unfolding_all rfl
  obtain ⟨-, hunbalanced, hfaults⟩ := @Command.ofTokens_fault none none _ _ _ hcheck
  obtain ⟨e, he⟩ := hunbalanced (by decide)
  exact ⟨e, he, hfaults e he⟩

end ControlLanguage
