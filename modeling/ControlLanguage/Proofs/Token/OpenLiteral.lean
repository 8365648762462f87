import ControlLanguage.Proofs.Token.Scan
import ControlLanguage.SyntaxError

/-!
# Literals without an end

Only the last token of a text can hold a literal that is still open where the
text ends, and it is that literal or a word with the literal in it. The check
of the tokens looks at the literals only: `check_ofText_isLexical`.
-/

namespace ControlLanguage

/-- Whether a literal is open at the end of a text. -/
def endsInLiteral (t : Text) : Bool := (marks t).getLast?.any fun m => m.role == .quoteOpen || m.role == .quoted

theorem Nesting.step_open_iff (n : Nesting) (c : Char) (next : Option Char) :
    ((n.step c next).1 = .quoteOpen ∨ (n.step c next).1 = .quoted) ↔ (n.step c next).2.mode ≠ .outside := by
  unfold step
  split <;> grind

theorem endsInLiteral_iff {t : Text} : endsInLiteral t = true ↔ (Nesting.start.after none t).mode ≠ .outside := by
  rcases List.eq_nil_or_concat t with rfl | ⟨v, x, rfl⟩
  · simp [endsInLiteral, marks, marksFrom, Nesting.after, Nesting.start]
  · rw [List.concat_eq_append, endsInLiteral, marks_eq, marksFrom_append, Nesting.after_snoc, List.head?_cons,
      marksFrom_cons, marksFrom, List.getLast?_concat, Option.any_some, Bool.or_eq_true, beq_iff_eq, beq_iff_eq]
    exact Nesting.step_open_iff ..

namespace Token

section
variable {first : Bool} {c : Char} {t v rest : Text} {u : Token} {pos : Nat} {front later : List Token}

theorem isClosedLiteral_of_kindAt (h : kindAt first c (v ++ rest) = (.string, v.length)) (hu : u.text = c :: v) :
    u.isClosedLiteral = true ↔ (Nesting.start.after none (c :: v)).mode = .outside := by
  obtain ⟨hc, hend⟩ := literal_of_kindAt h
  have hend' : (endOfLiteral (c :: v ++ [])).1 = v.length + 1 :=
    endOfLiteral_congr (List.cons_ne_nil c v) (.inr (.inl rfl)) hend
  rw [List.append_nil] at hend'
  rw [← hu]
  exact isClosedLiteral_iff hc hu hend'

namespace Place

variable (p : Place t pos u)

theorem isClosedLiteral (hk : u.kind = .string) (hr : p.rest ≠ []) : u.isClosedLiteral = true := by
  have hkind := p.kindAt_eq
  rw [hk] at hkind
  rw [isClosedLiteral_of_kindAt hkind (p.text_of_kind hk)]
  have hmode : (Nesting.start.after p.rest.head? (p.char :: p.tail)).mode = .outside :=
    (scanned_of_kindAt hkind).mode_after hr 0
  rw [(marksBefore_of_outside hmode 0).2]
  exact hmode

theorem mode_after (hr : p.rest = []) :
    (Nesting.start.after none t).mode = (Nesting.start.after none (p.char :: p.tail)).mode := by
  have htext : t = p.before ++ p.char :: p.tail := by
    have := p.text_eq
    rwa [hr, List.append_nil] at this
  have hmode : (Nesting.start.after (some p.char) p.before).mode = .outside := p.outside 0
  refine (congrArg (fun t => (Nesting.start.after none t).mode) htext).trans ?_
  exact Nesting.mode_after_append hmode

end Place

theorem readFrom_eq_nil_iff : readFrom first pos t = [] ↔ t = [] := by
  cases t with
  | nil => simp [readFrom_nil]
  | cons c cs => simp [readFrom_cons]

theorem exists_last_place (h : readFrom first pos t = front ++ [u]) : ∃ p : Place t pos u, p.rest = [] := by
  obtain ⟨p, hlater⟩ := exists_place h
  exact ⟨p, readFrom_eq_nil_iff.mp hlater.symm⟩

theorem exists_openLiteral_iff (first : Bool) (pos : Nat) (t : Text) :
    (∃ u ∈ readFrom first pos t, u.kind = .string ∧ u.isClosedLiteral = false) ↔
      (∃ u, (readFrom first pos t).getLast? = some u ∧ u.kind = .string) ∧
        (Nesting.start.after none t).mode ≠ .outside := by
  constructor
  · rintro ⟨u, hu, hk, hopen⟩
    obtain ⟨front, later, hsplit⟩ := List.append_of_mem hu
    obtain ⟨p, hlater⟩ := exists_place hsplit
    by_cases hr : p.rest = []
    · rw [hr, readFrom_nil] at hlater
      have hkind := p.kindAt_eq
      rw [hk] at hkind
      have hclosed := mt (isClosedLiteral_of_kindAt hkind (p.text_of_kind hk)).mpr
      rw [hsplit, hlater, p.mode_after hr]
      exact ⟨⟨u, List.getLast?_concat, hk⟩, fun hmode => hclosed (by simp [hopen]) hmode⟩
    · rw [p.isClosedLiteral hk hr] at hopen
      cases hopen
  · rintro ⟨⟨u, hu, hk⟩, hmode⟩
    obtain ⟨front, hsplit⟩ := List.getLast?_eq_some_iff.mp hu
    obtain ⟨p, hr⟩ := exists_last_place hsplit
    have hkind := p.kindAt_eq
    rw [hk] at hkind
    refine ⟨u, List.mem_of_getLast? hu, hk, ?_⟩
    rw [← Bool.not_eq_true, isClosedLiteral_of_kindAt hkind (p.text_of_kind hk), ← p.mode_after hr]
    exact hmode

theorem exists_last_of_open (hmode : (Nesting.start.after none t).mode ≠ .outside) (first : Bool) (pos : Nat) :
    ∃ u, (readFrom first pos t).getLast? = some u ∧ (u.kind = .string ∨ u.kind = .value) := by
  have hne : readFrom first pos t ≠ [] := by
    intro h
    rw [readFrom_eq_nil_iff.mp h] at hmode
    exact hmode rfl
  obtain ⟨front, u, hsplit⟩ := (List.eq_nil_or_concat _).resolve_left hne
  rw [List.concat_eq_append] at hsplit
  refine ⟨u, by rw [hsplit, List.getLast?_concat], ?_⟩
  obtain ⟨p, hr⟩ := exists_last_place hsplit
  have hscan := scanned_of_kindAt p.kindAt_eq
  rw [p.mode_after hr] at hmode
  rw [hr] at hscan
  by_contra hk
  have hinert : (∀ c ∈ p.char :: p.tail, isInert c = true) → False := fun h =>
    hmode (by rw [Nesting.start, (plain_of_inert h none 0 0).2])
  generalize p.char :: p.tail = w, u.kind = k at *
  cases hscan with
  | space hw => exact hinert fun c hc => isInert_of_isBlank (hw c hc)
  | parenOpen => exact hmode rfl
  | parenClose => exact hmode rfl
  | ordinary _ _ _ hw => exact hinert fun c hc => isInert_of_isOrdinary (hw c hc)
  | quoting h => exact hk h

end

theorem check_error_iff {source : Option Text} {ts : List Token} : (∃ e, check source ts = .error e) ↔
    (∀ t ∈ ts.head?, t.kind ≠ .command) ∨ ∃ t ∈ ts, t.kind = .string ∧ t.isClosedLiteral = false := by
  cases ts with
  | nil => simp [check]
  | cons t ts =>
    rw [check]
    by_cases hk : t.kind = .command
    · rw [if_neg (by simp [hk])]
      cases hf : (t :: ts).find? fun t => t.kind == .string && !t.isClosedLiteral with
      | none =>
        rw [List.find?_eq_none] at hf
        simp_all
      | some u =>
        have hu := List.find?_some hf
        rw [Bool.and_eq_true, beq_iff_eq, Bool.not_eq_true'] at hu
        exact iff_of_true ⟨_, rfl⟩ (.inr ⟨u, List.mem_of_find?_eq_some hf, hu⟩)
    · rw [if_pos hk]
      exact iff_of_true ⟨_, rfl⟩ (.inl (by simpa using hk))

theorem isLexical_of_check {source : Option Text} {ts : List Token} {e : SyntaxError}
    (h : check source ts = .error e) :
    e.reason.isLexical = true := by
  unfold check at h
  split at h
  · cases h; rfl
  · split at h
    · cases h; rfl
    · split at h
      · cases h; rfl
      · cases h

theorem endsInLiteral_dropWhile (text : Text) : endsInLiteral text = true ↔
    (Nesting.start.after none (text.dropWhile isBlank)).mode ≠ .outside := by
  rw [endsInLiteral_iff, ← Nesting.after_blanks none text (text.dropWhile isBlank),
    List.takeWhile_append_dropWhile]

/-- The check refuses a text that does not start with a command name, and one whose last token is a literal without
an end; a literal that is open inside of a last word passes. -/
theorem check_ofText_isLexical (source : Option Text) (text : Text) :
    ((∃ e, check source (ofText text) = .error e ∧ e.reason.isLexical = true) ↔
      (∀ t ∈ (ofText text).head?, t.kind ≠ .command) ∨
        endsInLiteral text = true ∧ ∃ t, (ofText text).getLast? = some t ∧ t.kind = .string) ∧
    (endsInLiteral text = true → ∃ t, (ofText text).getLast? = some t ∧ (t.kind = .string ∨ t.kind = .value)) := by
  rw [endsInLiteral_dropWhile]
  constructor
  · have hlexical : (∃ e, check source (ofText text) = .error e ∧ e.reason.isLexical = true) ↔
        ∃ e, check source (ofText text) = .error e :=
      exists_congr fun e => and_iff_left_of_imp isLexical_of_check
    rw [hlexical, check_error_iff, and_comm (b := ∃ t, _)]
    apply or_congr_right
    exact exists_openLiteral_iff true _ _
  · intro hmode
    exact exists_last_of_open hmode true _

theorem check_ofText_openLiteral : endsInLiteral "CMD A 'B".toList = true ∧
    (∃ e, check none (ofText "CMD A 'B".toList) = .error e ∧ e.reason.isLexical = true) ∧
    ∃ t, (ofText "CMD A 'B".toList).getLast? = some t ∧ (t.kind = .string ∨ t.kind = .value) := by
  have hopen : endsInLiteral "CMD A 'B".toList = true := by decide
  obtain ⟨hcheck, hlast⟩ := check_ofText_isLexical none "CMD A 'B".toList
  refine ⟨hopen, hcheck.mpr (.inr ⟨hopen, ⟨.string, "'B".toList, 6⟩, ?_, rfl⟩), hlast hopen⟩
  with_unfolding_all rfl

/-- The literal that opens inside of a word has no end, and the check lets it pass. -/
theorem check_ofText_openWord : endsInLiteral "CMD A'B".toList = true ∧
    check none (ofText "CMD A'B".toList) = .ok
      (⟨.command, "CMD".toList, 0⟩, [⟨.space, [' '], 3⟩, ⟨.value, "A'B".toList, 4⟩]) := by
  constructor
  · decide
  · with_unfolding_all rfl

end Token

end ControlLanguage
