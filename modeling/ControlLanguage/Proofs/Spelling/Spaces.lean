import ControlLanguage.Proofs.Places
import ControlLanguage.Proofs.Token.Reading

/-!
# Spaces between tokens

What the spaces around values decide and what they do not. A run may lose
the spaces at its end and be followed by other tokens, and whether a value
is a call depends only on its first two tokens and on the parentheses
directly after keywords.
-/

namespace ControlLanguage

def Token.blank : Token := ⟨.space, [' '], 0⟩

/-- What some tokens say apart from the spaces between them. -/
def solid (ts : List Token) : List (TokenKind × Text) := (ts.filter (!·.isSpace)).map Token.bare

section
variable {t p q : Token} {ts us a b inner rest : List Token}

theorem solid_append (a b : List Token) : solid (a ++ b) = solid a ++ solid b := by
  rw [solid, List.filter_append, List.map_append]; rfl

theorem solid_cons_space (h : t.isSpace = true) (ts : List Token) : solid (t :: ts) = solid ts := by
  rw [solid, List.filter_cons_of_neg (by simp [h])]; rfl

theorem solid_cons (h : t.isSpace = false) (ts : List Token) : solid (t :: ts) = t.bare :: solid ts := by
  rw [solid, List.filter_cons_of_pos (by simp [h])]; rfl

theorem solid_spaces (h : ∀ t ∈ ts, t.isSpace = true) : solid ts = [] := by
  rw [solid, List.filter_eq_nil_iff.mpr (fun t ht => by simp [h t ht])]; rfl

theorem isSpace_of_kind {k : TokenKind} (h : t.kind = k) (hk : k ≠ .space) : t.isSpace = false := by
  rw [← Bool.not_eq_true, Token.isSpace_iff, h]; exact hk

/-! ## At the ends -/

theorem exists_dropWhile_spaces (ts : List Token) : ∃ sp, ts = sp ++ ts.dropWhile Token.isSpace ∧
    ∀ t ∈ sp, t.isSpace = true :=
  ⟨ts.takeWhile Token.isSpace, List.takeWhile_append_dropWhile.symm,
    fun _ ht => List.all_eq_true.mp List.all_takeWhile _ ht⟩

theorem exists_dropTrailingSpaces (ts : List Token) : ∃ sp, ts = Value.dropTrailingSpaces ts ++ sp ∧
    ∀ t ∈ sp, t.isSpace = true := by
  obtain ⟨sp, hs, hall⟩ := exists_dropWhile_spaces ts.reverse
  refine ⟨sp.reverse, ?_, fun t ht => hall t (List.mem_reverse.mp ht)⟩
  rw [Value.dropTrailingSpaces, ← List.reverse_append, ← hs, List.reverse_reverse]

theorem dropTrailingSpaces_cons (h : t.isSpace = false) (ts : List Token) :
    Value.dropTrailingSpaces (t :: ts) = t :: Value.dropTrailingSpaces ts := by
  rw [Value.dropTrailingSpaces, List.reverse_cons, List.dropWhile_append]
  split
  · next he =>
    rw [Value.dropTrailingSpaces, List.isEmpty_iff.mp he, List.dropWhile_cons_of_neg (by simp [h])]; rfl
  · rw [List.reverse_append]; rfl

theorem dropTrailingSpaces_append (hb : ∀ t ∈ b, t.isSpace = true) (a : List Token) :
    Value.dropTrailingSpaces (a ++ b) = Value.dropTrailingSpaces a := by
  rw [Value.dropTrailingSpaces, List.reverse_append,
    List.dropWhile_append_of_pos (fun t ht => hb t (List.mem_reverse.mp ht))]
  rfl

theorem getLast?_dropTrailingSpaces (h : (Value.dropTrailingSpaces ts).getLast? = some t) :
    t.isSpace = false := by
  rw [Value.dropTrailingSpaces, List.getLast?_reverse] at h
  have := List.head?_dropWhile_not Token.isSpace ts.reverse
  rw [h] at this
  simpa using this

/-! ## Parentheses -/

theorem openAfter_spaces (h : ∀ t ∈ ts, t.isSpace = true) (d : Nat) : openAfter d ts = some d := by
  induction ts with
  | nil => rfl
  | cons t ts ih =>
    have hk := Token.isSpace_iff.mp (h t (List.mem_cons_self ..))
    rw [openAfter_other (by rw [hk]; decide) (by rw [hk]; decide)]
    exact ih fun u hu => h u (List.mem_cons_of_mem _ hu)

theorem Balanced.append (ha : Balanced a) (hb : Balanced b) : Balanced (a ++ b) := by
  rw [Balanced, openAfter_append, ha]; exact hb

theorem openAfter_le {d d' : Nat} (h : openAfter d ts = some d') (n : Nat) :
    openAfter (d + n) ts = some (d' + n) := by
  induction ts generalizing d with
  | nil => cases h; rfl
  | cons t ts ih =>
    by_cases ho : t.kind = .parenOpen
    · rw [openAfter_open ho] at h ⊢
      rw [Nat.add_right_comm]; exact ih h
    · by_cases hc : t.kind = .parenClose
      · cases d with
        | zero => rw [openAfter_close_zero hc] at h; cases h
        | succ d =>
          rw [openAfter_close hc] at h
          rw [Nat.add_right_comm, openAfter_close hc]; exact ih h
      · rw [openAfter_other ho hc] at h ⊢
        exact ih h

theorem Balanced.span (hp : p.kind = .parenOpen) (hi : Balanced inner) (hq : q.kind = .parenClose)
    (hr : Balanced rest) : Balanced (p :: inner ++ q :: rest) := by
  rw [Balanced, List.cons_append, openAfter_open hp, openAfter_append, openAfter_le hi 1, Option.bind_some,
    openAfter_close hq]
  exact hr

theorem Balanced.of_spaces (h : Balanced (a ++ b)) (hb : ∀ t ∈ b, t.isSpace = true) : Balanced a := by
  rw [Balanced, openAfter_append] at h
  obtain ⟨d, hd, h⟩ := Option.bind_eq_some_iff.mp h
  rw [openAfter_spaces hb] at h
  rw [Balanced, hd]; exact h

theorem RunOf.balanced {stops : Bool → Token → Bool} {after : Bool} {run : List Token}
    (h : RunOf stops after run rest) : Balanced run := by
  induction h with
  | done => rfl
  | stop _ => rfl
  | atom _ ho hc _ ih => rw [Balanced, openAfter_other ho hc]; exact ih
  | span _ hp hb hq _ ih => exact Balanced.span hp hb hq ih

end

/-! ## Runs -/

section
variable {stops : Bool → Token → Bool} {after : Bool} {run rest : List Token}

theorem RunOf.rest_of_stopsAtSpace (h : RunOf stopsAtSpace after run rest) :
    rest = [] ∨ ∃ u us, rest = u :: us ∧ u.isSpace = true := by
  induction h with
  | done => exact .inl rfl
  | stop hs => exact .inr ⟨_, _, rfl, hs⟩
  | atom _ _ _ _ ih => exact ih
  | span _ _ _ _ _ ih => exact ih

theorem RunOf.rest_of_stopsAtGroup (h : RunOf stopsAtGroup after run rest) : rest = [] ∨
    (∃ p ps, rest = p :: ps ∧ p.kind = .parenOpen) ∧ (run = [] → after = true) ∧
      ∀ t, run.getLast? = some t → t.isSpace = true := by
  induction h with
  | done => exact .inl rfl
  | stop hs =>
    simp only [stopsAtGroup, Bool.and_eq_true, beq_iff_eq] at hs
    exact .inr ⟨⟨_, _, rfl, hs.2⟩, fun _ => hs.1, by simp⟩
  | @atom after t run rest _ _ _ _ ih =>
    rcases ih with ih | ⟨hp, hn, hl⟩
    · exact .inl ih
    refine .inr ⟨hp, by simp, ?_⟩
    cases run with
    | nil => rintro _ ⟨⟩; exact hn rfl
    | cons u us => intro v hv; exact hl v (by rw [← hv, List.getLast?_cons_cons])
  | @span after p inner q run rest _ _ _ _ _ ih =>
    rcases ih with ih | ⟨hp, hn, hl⟩
    · exact .inl ih
    refine .inr ⟨hp, by simp, ?_⟩
    cases run with
    | nil => exact absurd (hn rfl) (by decide)
    | cons u us =>
      intro v hv
      rw [List.getLast?_append, List.getLast?_cons_cons] at hv
      refine hl v ?_
      rw [← hv, List.getLast?_eq_some_getLast (List.cons_ne_nil u us)]; rfl

/-- A run may lose the spaces at its end and go on in another way. -/
theorem RunOf.exchange {a sp sp' rest' : List Token} (h : RunOf stops after (a ++ sp) rest)
    (hsp : ∀ t ∈ sp, t.isSpace = true) (hs : ∀ after, RunOf stops after sp' rest') :
    RunOf stops after (a ++ sp') rest' := by
  generalize hr : a ++ sp = run at h
  induction h generalizing a with
  | done => rw [(List.append_eq_nil_iff.mp hr).1]; exact hs _
  | stop => rw [(List.append_eq_nil_iff.mp hr).1]; exact hs _
  | atom hstop ho hc _ ih =>
    cases a with
    | nil => exact hs _
    | cons u us =>
      rw [List.cons_append, List.cons.injEq] at hr
      obtain ⟨rfl, hr⟩ := hr
      exact .atom hstop ho hc (ih hr)
  | @span after p inner q run rest hstop hp hb hq _ ih =>
    cases a with
    | nil => exact hs _
    | cons u us =>
      rw [List.cons_append, List.cons_append, List.cons.injEq] at hr
      obtain ⟨rfl, hr⟩ := hr
      -- the parenthesis that closes the span is no space, so the span ends before `sp`
      have hclose : ∀ {c : List Token}, sp ≠ c ++ q :: run := by
        rintro c rfl
        have := hsp q (by simp)
        rw [isSpace_of_kind hq (by decide)] at this; cases this
      rcases List.append_eq_append_iff.mp hr with ⟨c, -, hc⟩ | ⟨c, rfl, hc⟩
      · exact absurd hc hclose
      · cases c with
        | nil => exact absurd (show sp = [] ++ q :: run from hc.symm) hclose
        | cons v vs =>
          obtain ⟨rfl, rfl⟩ := List.cons.inj hc
          rw [List.cons_append, List.append_assoc, ← List.cons_append]
          exact .span hstop hp hb hq (ih rfl)

end

/-! ## Calls -/

namespace Value

section
variable {t p q : Token} {ts us a rest inner : List Token}

theorem hasArgument_other (ho : t.kind ≠ .parenOpen) (hc : t.kind ≠ .parenClose) (after : Bool) (d : Int)
    (ts : List Token) : hasArgument after d (t :: ts) = hasArgument (t.kind == .keyword) d ts := by
  rw [hasArgument]
  split
  · exact absurd ‹_› ho
  · exact absurd ‹_› hc
  · rfl

theorem hasArgument_open (h : t.kind = .parenOpen) (after : Bool) (d : Int) (ts : List Token) :
    hasArgument after d (t :: ts) = (after && d == 0 || hasArgument false (d + 1) ts) := by
  rw [hasArgument, h]

theorem hasArgument_close (h : t.kind = .parenClose) (after : Bool) (d : Int) (ts : List Token) :
    hasArgument after d (t :: ts) = hasArgument false (d - 1) ts := by
  rw [hasArgument, h]

theorem hasArgument_space (h : t.isSpace = true) (after : Bool) (d : Int) (ts : List Token) :
    hasArgument after d (t :: ts) = hasArgument false d ts := by
  have hk := Token.isSpace_iff.mp h
  rw [hasArgument_other (by rw [hk]; decide) (by rw [hk]; decide), hk]; rfl

def Apart (ts : List Token) : Prop := ∀ t us, ts = t :: us → t.kind ≠ .parenOpen

theorem apart_nil : Apart [] := by
  intro t us h; cases h

theorem apart_space (h : t.isSpace = true) (ts : List Token) : Apart (t :: ts) := by
  rintro _ _ ⟨⟩
  rw [Token.isSpace_iff.mp h]; decide

theorem hasArgument_apart (h : Apart ts) (after : Bool) (d : Int) :
    hasArgument after d ts = hasArgument false d ts := by
  cases ts with
  | nil => rfl
  | cons t ts =>
    have ho := h t ts rfl
    by_cases hc : t.kind = .parenClose
    · rw [hasArgument_close hc, hasArgument_close hc]
    · rw [hasArgument_other ho hc, hasArgument_other ho hc]

theorem hasArgument_append {d d' : Nat} (h : openAfter d a = some d') (hr : Apart rest) (after : Bool) :
    hasArgument after d (a ++ rest) = (hasArgument after d a || hasArgument false d' rest) := by
  induction a generalizing d after with
  | nil => cases h; rw [List.nil_append, hasArgument_apart hr]; rfl
  | cons t ts ih =>
    rw [List.cons_append]
    by_cases ho : t.kind = .parenOpen
    · rw [openAfter_open ho] at h
      rw [hasArgument_open ho, hasArgument_open ho, Bool.or_assoc]
      exact congrArg _ (ih h false)
    · by_cases hc : t.kind = .parenClose
      · cases d with
        | zero => rw [openAfter_close_zero hc] at h; cases h
        | succ d =>
          rw [openAfter_close hc] at h
          rw [hasArgument_close hc, hasArgument_close hc, Int.natCast_succ, Int.add_sub_cancel]
          exact ih h false
      · rw [openAfter_other ho hc] at h
        rw [hasArgument_other ho hc, hasArgument_other ho hc]
        exact ih h _

theorem hasArgument_nested {d : Nat} (h : openAfter d inner = some 0) (hq : q.kind = .parenClose)
    (after : Bool) (rest : List Token) :
    hasArgument after (d + 1) (inner ++ q :: rest) = hasArgument false 0 rest := by
  induction inner generalizing d after with
  | nil =>
    cases h
    rw [List.nil_append, hasArgument_close hq]; rfl
  | cons t ts ih =>
    rw [List.cons_append]
    by_cases ho : t.kind = .parenOpen
    · rw [openAfter_open ho] at h
      have hd : ((d : Int) + 1 == 0) = false := by rw [beq_eq_false_iff_ne]; omega
      rw [hasArgument_open ho, hd, Bool.and_false, Bool.false_or]
      exact ih h false
    · by_cases hc : t.kind = .parenClose
      · cases d with
        | zero => rw [openAfter_close_zero hc] at h; cases h
        | succ d =>
          rw [openAfter_close hc] at h
          rw [hasArgument_close hc, Int.natCast_succ, Int.add_sub_cancel]
          exact ih h false
      · rw [openAfter_other ho hc] at h
        rw [hasArgument_other ho hc]
        exact ih h _

theorem hasArgument_span (hp : p.kind = .parenOpen) (hi : Balanced inner) (hq : q.kind = .parenClose)
    (after : Bool) (rest : List Token) :
    hasArgument after 0 (p :: inner ++ q :: rest) = (after || hasArgument false 0 rest) := by
  rw [List.cons_append, hasArgument_open hp, ← hasArgument_nested hi hq false rest]
  simp

theorem hasArgument_spaces (h : ∀ t ∈ a, t.isSpace = true) (d : Int) (ts : List Token) :
    hasArgument false d (a ++ ts) = hasArgument false d ts := by
  induction a with
  | nil => rfl
  | cons t a ih =>
    rw [List.cons_append, hasArgument_space (h t (List.mem_cons_self ..))]
    exact ih fun u hu => h u (List.mem_cons_of_mem _ hu)

theorem hasArgument_name (hk : t.kind = .keyword ∨ t.kind = .value) (hr : Apart ts) :
    hasArgument false 0 (t :: ts) = hasArgument false 0 ts := by
  have ho : t.kind ≠ .parenOpen ∧ t.kind ≠ .parenClose := by
    rcases hk with hk | hk <;> rw [hk] <;> decide
  rw [hasArgument_other ho.1 ho.2, hasArgument_apart hr]

theorem nestedCall?_eq_some_iff {name : Text} : nestedCall? ts = some (name, us) ↔
    ∃ t gap u ws, ts.dropWhile Token.isSpace = t :: us ∧ us = gap :: u :: ws ∧ t.text = name ∧
      gap.isSpace = true ∧ (t.kind = .keyword ∨ t.kind = .value) ∧ Word.isCommand t.text = true ∧
      hasArgument false 0 us = true := by
  rw [nestedCall?]
  constructor
  · intro h
    split at h
    · next t gap u ws hd =>
      split at h
      · next hc =>
        obtain ⟨rfl, rfl⟩ := Prod.mk.inj (Option.some.inj h)
        simp only [Bool.and_eq_true, Bool.or_eq_true, beq_iff_eq] at hc
        refine ⟨t, gap, u, ws, hd, rfl, rfl, hc.1.1.1, hc.1.1.2, hc.1.2, ?_⟩
        rw [← hasArgument_name hc.1.1.2 (apart_space hc.1.1.1 _)]; exact hc.2
      · cases h
    · cases h
  · rintro ⟨t, gap, u, ws, hd, rfl, rfl, hg, hk, hn, ha⟩
    rw [hd]
    rw [← hasArgument_name hk (apart_space hg _)] at ha
    simp only [hg, hn, ha, Bool.and_true, Bool.true_and]
    rw [if_pos (by simpa using hk)]

theorem nestedCall?_split {name : Text} (h : nestedCall? ts = some (name, us)) :
    ∃ sp t, ts = sp ++ t :: us ∧ (∀ u ∈ sp, u.isSpace = true) ∧ t.text = name ∧
      (t.kind = .keyword ∨ t.kind = .value) ∧ Word.isCommand t.text = true ∧ hasArgument false 0 us = true := by
  obtain ⟨t, _, _, _, hd, -, hname, -, hk, hc, ha⟩ := nestedCall?_eq_some_iff.mp h
  obtain ⟨sp, hsplit, hsp⟩ := exists_dropWhile_spaces ts
  rw [hd] at hsplit
  exact ⟨sp, t, hsplit, hsp, hname, hk, hc, ha⟩

theorem nestedCall?_space (h : t.isSpace = true) (ts : List Token) : nestedCall? (t :: ts) = nestedCall? ts := by
  rw [nestedCall?, nestedCall?, List.dropWhile_cons_of_pos h]

theorem nestedCall?_open (h : p.kind = .parenOpen) (ts : List Token) : nestedCall? (p :: ts) = none := by
  rw [Option.eq_none_iff_forall_ne_some]
  rintro ⟨name, us⟩ hn
  obtain ⟨t, _, _, _, hd, -, -, -, hk, -⟩ := nestedCall?_eq_some_iff.mp hn
  rw [List.dropWhile_cons_of_neg (by simp [isSpace_of_kind h (by decide)])] at hd
  obtain ⟨rfl, -⟩ := List.cons.inj hd
  rw [h] at hk
  rcases hk with hk | hk <;> cases hk

end

end Value

end ControlLanguage
