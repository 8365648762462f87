import ControlLanguage.Proofs.Nesting.SelfContained

/-!
# Tokens under the scan

A text is cut into tokens only where its scan lies outside of literals.
`Scanned` says what the scan finds in one token: blanks, one parenthesis, or
characters of which none is a blank or a parenthesis unless a literal holds
it. What the scan finds in the whole text is put together from that, token
by token.
-/

namespace ControlLanguage

/-! ## Marks of a part of a text -/

section
variable {n : Nesting} {next : Option Char} {c x : Char} {t u v w rest : Text}

theorem Mark.not_paren_of_inWord {m : Mark} (h : m.inWord = true) : m.role ≠ .parenOpen ∧ m.role ≠ .parenClose := by
  constructor <;>
  · intro hr
    rw [Mark.inWord, hr] at h
    cases h

theorem Nesting.depth_of_not_paren (h : (n.step c next).1 ≠ .parenOpen ∧ (n.step c next).1 ≠ .parenClose) :
    (n.step c next).2.depth = n.depth := by
  unfold step at h ⊢
  split <;> grind

theorem Nesting.after_of_inWord {i : Nat} (h : (marksBefore next n i w).all Mark.inWord = true) :
    (n.after next w).depth = n.depth := by
  induction w generalizing n i with
  | nil => rfl
  | cons c cs ih =>
    rw [marksBefore, List.all_cons, Bool.and_eq_true] at h
    rw [after, ih h.2]
    exact depth_of_not_paren (Mark.not_paren_of_inWord h.1)

/-- If the text behind starts outside of literals, the marks do not change when nothing follows. -/
theorem Nesting.step_of_outside (h : (n.step c next).2.mode = .outside) : n.step c none = n.step c next := by
  unfold step at h ⊢
  split <;> grind

theorem marksBefore_of_outside (h : (n.after next w).mode = .outside) (i : Nat) :
    marksBefore none n i w = marksBefore next n i w ∧ n.after none w = n.after next w := by
  rcases List.eq_nil_or_concat w with rfl | ⟨v, x, rfl⟩
  · exact ⟨rfl, rfl⟩
  · rw [List.concat_eq_append, Nesting.after_snoc] at *
    have hstep : ∀ m : Nesting, (m.step x next).2.mode = .outside → m.step x none = m.step x next :=
      fun _ => Nesting.step_of_outside
    rw [marksBefore_snoc, marksBefore_snoc, Nesting.after_snoc]
    generalize n.after (some x) v = m at h ⊢
    rw [marksBefore, marksBefore, marksBefore, marksBefore, List.head?_nil, Option.none_or, Option.none_or,
      Nesting.depthAt, Nesting.depthAt, hstep m h]
    exact ⟨rfl, rfl⟩

theorem plain_of_inert (h : ∀ c ∈ w, isInert c = true) (next : Option Char) (d : Int) (i : Nat) :
    (∀ m ∈ marksBefore next ⟨.outside, d⟩ i w, m.role = .plain) ∧
    Nesting.after next ⟨.outside, d⟩ w = ⟨.outside, d⟩ := by
  induction w generalizing i with
  | nil => simp [marksBefore, Nesting.after]
  | cons c w ih =>
    obtain ⟨hc, hw⟩ := List.forall_mem_cons.mp h
    rw [marksBefore, Nesting.after, Nesting.step_inert hc, List.forall_mem_cons]
    exact ⟨⟨rfl, (ih hw _).1⟩, (ih hw i).2⟩

theorem Nesting.after_inert (h : ∀ c ∈ w, isInert c = true) (next : Option Char) (t : Text) :
    start.after next (w ++ t) = start.after next t := by
  rw [after_append, start, (plain_of_inert h _ 0 0).2]

theorem Nesting.after_blanks (next : Option Char) (t u : Text) :
    start.after next (t.takeWhile isBlank ++ u) = start.after next u :=
  after_inert (fun _ hc => isInert_of_isBlank (List.mem_takeWhile_imp hc)) next u

end

namespace Token

/-- A token of the kind `k` with the characters `w` in front of `rest`: only a literal and a word with literals in
it can hold blanks and parentheses, and only at the end of the text can they stay open. -/
inductive Scanned (rest : Text) : TokenKind → Text → Prop
  | space {w} : (∀ c ∈ w, isBlank c = true) → Scanned rest .space w
  | parenOpen : Scanned rest .parenOpen ['(']
  | parenClose : Scanned rest .parenClose [')']
  | ordinary {k w} : k ≠ .space → k ≠ .parenOpen → k ≠ .parenClose → (∀ c ∈ w, isOrdinary c = true) →
      Scanned rest k w
  | quoting {k w} : k = .string ∨ k = .value → (marksBefore rest.head? .start 0 w).all Mark.inWord = true →
      rest = [] ∨ (Nesting.start.after rest.head? w).mode = .outside → Scanned rest k w

section
variable {first : Bool} {c x : Char} {u v w rest : Text} {k : TokenKind}

/-! ## Literals -/

theorem not_quoteClose_of_endOfLiteral (h : (endOfLiteral (u ++ x :: rest)).1 = u.length + 1) :
    ∀ m ∈ marksBefore (some x) .start 0 u, m.role ≠ .quoteClose := by
  rw [endOfLiteral, marks_eq, marksFrom_append, List.head?_cons, List.find?_append] at h
  cases hf : (marksBefore (some x) .start 0 u).find? (·.role == .quoteClose) with
  | none => exact fun m hm => by simpa using List.find?_eq_none.mp hf m hm
  | some m =>
    have := index_of_mem_marksBefore (List.mem_of_find?_eq_some hf)
    rw [hf] at h
    simp only [Option.some_or, Nat.zero_add] at h this
    omega

theorem step_quote (hc : c = '\'' ∨ c = '"') (d : Int) (next : Option Char) :
    (Nesting.step ⟨.outside, d⟩ c next).1 = .quoteOpen ∧ (Nesting.step ⟨.outside, d⟩ c next).2.mode ≠ .outside := by
  rcases hc with rfl | rfl <;> simp [Nesting.step]

theorem inside_of_endOfLiteral (hc : c = '\'' ∨ c = '"')
    (h : (endOfLiteral (c :: u ++ x :: rest)).1 = u.length + 2) :
    (∀ m ∈ marksBefore (some x) .start 0 (c :: u), m.role.inLiteral = true) ∧
      (Nesting.start.after (some x) (c :: u)).mode ≠ .outside := by
  have hnone := not_quoteClose_of_endOfLiteral (u := c :: u) h
  obtain ⟨hrole, hmode⟩ := step_quote hc 0 (u.head?.or (some x))
  rw [marksBefore, List.forall_mem_cons] at hnone
  obtain ⟨hall, hend, -⟩ := marksBefore_inside hmode hnone.2
  rw [marksBefore, Nesting.after, List.forall_mem_cons]
  refine ⟨⟨?_, hall⟩, hend⟩
  rw [show (Nesting.start.step c _).1 = .quoteOpen from hrole]
  rfl

theorem step_quoteClose_iff {n : Nesting} {next : Option Char} (hm : n.mode ≠ .outside) :
    (n.step x next).1 = .quoteClose ↔ (n.step x next).2.mode = .outside := by
  constructor
  · intro h
    rw [Nesting.step_quoteClose h]
  · intro h
    by_contra hc
    exact (Nesting.step_inside hm hc).2.1 h

theorem endOfLiteral_eq (h : (endOfLiteral (c :: (v ++ rest))).1 - 1 = v.length) :
    (endOfLiteral (c :: v ++ rest)).1 = v.length + 1 := by
  have hpos := endOfLiteral_pos c (v ++ rest)
  rw [List.cons_append]; omega

theorem inLiteral_of_endOfLiteral (hc : c = '\'' ∨ c = '"') (h : (endOfLiteral (c :: v ++ rest)).1 = v.length + 1)
    (next : Option Char) : ∀ m ∈ marksBefore next .start 0 (c :: v), m.role.inLiteral = true := by
  rcases List.eq_nil_or_concat v with rfl | ⟨u, x, rfl⟩
  · obtain ⟨hopen, -⟩ := step_quote hc 0 next
    intro m hm
    rw [marksBefore, marksBefore, List.mem_singleton] at hm
    rw [hm, List.head?_nil, Option.none_or, show (Nesting.start.step c next).1 = .quoteOpen from hopen]
    rfl
  · rw [List.concat_eq_append] at h ⊢
    rw [List.length_append, List.length_singleton, ← List.cons_append, List.append_assoc,
      List.singleton_append] at h
    obtain ⟨hall, hmode⟩ := inside_of_endOfLiteral hc h
    rw [← List.cons_append, marksBefore_snoc, List.forall_mem_append]
    refine ⟨hall, fun m hm => ?_⟩
    rw [marksBefore, marksBefore, List.mem_singleton] at hm
    rw [hm]
    exact Nesting.inLiteral_of_inside hmode

theorem isClosedLiteral_iff {t : Token} (hc : c = '\'' ∨ c = '"') (ht : t.text = c :: v)
    (h : (endOfLiteral (c :: v)).1 = v.length + 1) :
    t.isClosedLiteral = true ↔ (Nesting.start.after none t.text).mode = .outside := by
  rw [isClosedLiteral, ht]
  rcases List.eq_nil_or_concat v with rfl | ⟨u, x, rfl⟩
  · rcases hc with rfl | rfl <;> decide
  · rw [List.concat_eq_append] at h ⊢
    rw [List.length_append, List.length_singleton] at h
    change (endOfLiteral (c :: u ++ x :: [])).1 = u.length + 2 at h
    obtain ⟨-, hmode⟩ := inside_of_endOfLiteral hc h
    have hopen := not_quoteClose_of_endOfLiteral h
    rw [← List.cons_append, Nesting.after_snoc, ← step_quoteClose_iff hmode, beq_iff_eq]
    constructor
    · intro he
      have hnone : (marksBefore (some x) .start 0 (c :: u)).find? (·.role == .quoteClose) = none := by
        simpa using hopen
      by_contra hx
      rw [endOfLiteral, marks_eq, marksFrom_append, List.head?_cons, List.find?_append, hnone, Option.none_or,
        marksFrom_cons, List.find?_cons_of_neg (by simpa using hx)] at he
      cases congrArg Prod.snd he
    · intro hx
      have hend : endOfLiteral (c :: u ++ [x]) = ((c :: u).length + 1, true) := endOfLiteral_of_close hopen hx
      rw [hend]
      simp

/-! ## Kinds of tokens -/

theorem Scanned.of_run {p : Char → Bool} (hk : k ≠ .space ∧ k ≠ .parenOpen ∧ k ≠ .parenClose)
    (hp : ∀ c, p c = true → isOrdinary c = true) (hc : isOrdinary c = true)
    (h : ((v ++ rest).takeWhile p).length = v.length) : Scanned rest k (c :: v) := by
  have hall := (takeWhile_append_length_iff.mp h).1
  apply ordinary hk.1 hk.2.1 hk.2.2
  rw [List.forall_mem_cons]
  exact ⟨hc, fun d hd => hp d (List.all_eq_true.mp hall d hd)⟩

theorem length_of_wordLength (hc : isDelimiter c = false) (h : wordLength (c :: (v ++ rest)) - 1 = v.length) :
    wordLength (c :: v ++ rest) = (c :: v).length := by
  have hpos := wordLength_pos hc (v ++ rest)
  rw [List.cons_append, List.length_cons]; omega

theorem Scanned.of_isCommand (hk : k ≠ .space ∧ k ≠ .parenOpen ∧ k ≠ .parenClose) (hc : isDelimiter c = false)
    (hw : Word.isCommand (word (c :: (v ++ rest))) = true) (h : wordLength (c :: (v ++ rest)) - 1 = v.length) :
    Scanned rest k (c :: v) := by
  rw [← List.cons_append, word_append (length_of_wordLength hc h)] at hw
  exact .ordinary hk.1 hk.2.1 hk.2.2 (List.all_eq_true.mp (Word.isOrdinary_of_isCommand hw))

theorem Scanned.of_wordLength (hc : isDelimiter c = false) (h : wordLength (c :: (v ++ rest)) - 1 = v.length) :
    Scanned rest .value (c :: v) := by
  obtain ⟨hall, hend⟩ := wordLength_append_iff.mp (length_of_wordLength hc h)
  exact .quoting (.inr rfl) hall (hend.imp_right And.left)

theorem Scanned.of_endOfLiteral (hc : c = '\'' ∨ c = '"') (h : (endOfLiteral (c :: (v ++ rest))).1 - 1 = v.length) :
    Scanned rest .string (c :: v) := by
  have hend := endOfLiteral_eq h
  refine .quoting (.inl rfl) ?_ ?_
  · rw [List.all_eq_true]
    intro m hm
    rw [Mark.inWord, inLiteral_of_endOfLiteral hc hend _ m hm]; rfl
  · by_cases hr : rest = []
    · exact .inl hr
    · right
      obtain ⟨u, x, hu⟩ := (List.eq_nil_or_concat (c :: v)).resolve_left (List.cons_ne_nil _ _)
      have hlen := congrArg List.length hu
      rw [List.length_cons, List.concat_eq_append, List.length_append, List.length_singleton] at hlen
      rw [hu, List.concat_eq_append, List.append_assoc, List.singleton_append, hlen] at hend
      rw [hu, List.concat_eq_append, Nesting.after_snoc, Nesting.step_quoteClose (close_of_endOfLiteral hr hend).2]

theorem scanned_of_kindAt_false (h : kindAt false c (v ++ rest) = (k, v.length)) : Scanned rest k (c :: v) := by
  have hkind := kindOf h
  generalize hr : (k, v.length) = r at hkind
  cases hkind <;> obtain ⟨rfl, hl⟩ := Prod.mk.inj hr
  case space hc =>
    have hall := (takeWhile_append_length_iff.mp hl.symm).1
    apply Scanned.space
    rw [List.forall_mem_cons]
    exact ⟨hc, List.all_eq_true.mp hall⟩
  case parenOpen hc =>
    rw [hc, List.eq_nil_of_length_eq_zero hl]
    exact .parenOpen
  case parenClose hc =>
    rw [hc, List.eq_nil_of_length_eq_zero hl]
    exact .parenClose
  case string hc => exact .of_endOfLiteral hc hl.symm
  case variableRef hc =>
    exact .of_run (by decide) (fun _ => isOrdinary_of_continuesName) (by rw [hc]; decide) hl.symm
  case wordOperator hc =>
    exact .of_run (by decide) (fun _ => isOrdinary_of_continuesName) (by rw [hc]; decide) hl.symm
  case library hc => exact .of_wordLength (by rw [hc]; decide) hl.symm
  case symbolic hc =>
    exact .of_run (by decide) (fun _ => isOrdinary_of_continuesName) (by rw [hc]; decide) hl.symm
  case function hc =>
    exact .of_run (by decide) (fun _ h => isOrdinary_of_continuesName (continuesName_of_isAlpha h))
      (by rw [hc]; decide)
      hl.symm
  case pair hp =>
    obtain ⟨d, rfl⟩ := List.length_eq_one_iff.mp hl
    have hordinary : ∀ p ∈ pairOperators, isOrdinary p.1 = true ∧ isOrdinary p.2 = true := by decide
    obtain ⟨h1, h2⟩ := hordinary (c, d) (List.contains_iff_mem.mp hp)
    exact .ordinary (by decide) (by decide) (by decide) (by simp [h1, h2])
  case char hc =>
    have hordinary : charOperators.all isOrdinary = true := by decide
    rw [List.eq_nil_of_length_eq_zero hl]
    refine .ordinary (by decide) (by decide) (by decide) (List.forall_mem_singleton.mpr ?_)
    exact List.all_eq_true.mp hordinary c (List.contains_iff_mem.mp hc)
  case keyword hc hn =>
    exact .of_isCommand (by decide) (not_isDelimiter_of_isOrdinary hc) (Word.isCommand_of_isName hn) hl.symm
  case value hc _ => exact .of_wordLength (not_isDelimiter_of_isOrdinary hc) hl.symm

theorem scanned_of_kindAt (h : kindAt first c (v ++ rest) = (k, v.length)) : Scanned rest k (c :: v) := by
  cases first with
  | false => exact scanned_of_kindAt_false h
  | true =>
    rw [kindAt_true] at h
    split at h
    · next hc =>
      obtain ⟨rfl, hl⟩ := Prod.mk.inj h
      exact .of_isCommand (by decide) (not_isDelimiter_of_isOrdinary hc.1) hc.2 hl
    · exact scanned_of_kindAt_false h

theorem literal_of_kindAt (h : kindAt first c (v ++ rest) = (.string, v.length)) : (c = '\'' ∨ c = '"') ∧
    (endOfLiteral (c :: v ++ rest)).1 = v.length + 1 := by
  have hfalse := kindAt_false_of_ne_command h (by decide)
  generalize hr : (TokenKind.string, v.length) = r at hfalse
  cases kindOf hfalse <;> obtain ⟨hk, hl⟩ := Prod.mk.inj hr
  case string hc => exact ⟨hc, endOfLiteral_eq hl.symm⟩
  all_goals cases hk

/-! ## What a token leaves open -/

theorem Scanned.mode_after (h : Scanned rest k w) (hr : rest ≠ []) (d : Int) :
    (Nesting.after rest.head? ⟨.outside, d⟩ w).mode = .outside := by
  have hinert : (∀ c ∈ w, isInert c = true) → _ := fun hw => (plain_of_inert hw rest.head? d 0).2
  cases h with
  | space hw => rw [hinert fun c hc => isInert_of_isBlank (hw c hc)]
  | parenOpen => rfl
  | parenClose => rfl
  | ordinary _ _ _ hw => rw [hinert fun c hc => isInert_of_isOrdinary (hw c hc)]
  | quoting _ _ hend =>
    rw [Nesting.mode_after]
    exact hend.resolve_left hr

theorem Scanned.not_paren (h : Scanned rest k w) (hk : k ≠ .parenOpen ∧ k ≠ .parenClose) (d : Int) (i : Nat) :
    (∀ m ∈ marksBefore rest.head? ⟨.outside, d⟩ i w, m.role ≠ .parenOpen ∧ m.role ≠ .parenClose) ∧
      (Nesting.after rest.head? ⟨.outside, d⟩ w).depth = d := by
  have hinert : (∀ c ∈ w, isInert c = true) → _ := fun hw => plain_of_inert hw rest.head? d i
  cases h with
  | space hw =>
    obtain ⟨hplain, hend⟩ := hinert fun c hc => isInert_of_isBlank (hw c hc)
    exact ⟨fun m hm => by simp [hplain m hm], by rw [hend]⟩
  | parenOpen => exact absurd rfl hk.1
  | parenClose => exact absurd rfl hk.2
  | ordinary _ _ _ hw =>
    obtain ⟨hplain, hend⟩ := hinert fun c hc => isInert_of_isOrdinary (hw c hc)
    exact ⟨fun m hm => by simp [hplain m hm], by rw [hend]⟩
  | quoting _ hw _ =>
    rw [← start_deeper]
    constructor
    · intro m hm
      have hpart := List.mem_map_of_mem (f := Mark.part) hm
      rw [map_part_marksBefore_deeper rest.head? .start d i 0] at hpart
      obtain ⟨m', hm', he⟩ := List.mem_map.mp hpart
      rw [← show m'.role = m.role from congrArg Prod.fst he]
      exact Mark.not_paren_of_inWord (List.all_eq_true.mp hw m' hm')
    · rw [Nesting.after_deeper, Nesting.deeper, Nesting.after_of_inWord hw]
      exact Int.zero_add d

/-- Behind a token that is no parenthesis the marks go on as if nothing had come before. -/
theorem Scanned.marksFrom_append (h : Scanned rest k w) (hk : k ≠ .parenOpen ∧ k ≠ .parenClose) (d : Int)
    (i : Nat) :
    ∃ ms, (∀ m ∈ ms, m.role ≠ .parenOpen ∧ m.role ≠ .parenClose) ∧
      marksFrom ⟨.outside, d⟩ i (w ++ rest) = ms ++ marksFrom ⟨.outside, d⟩ (i + w.length) rest := by
  obtain ⟨hparen, hdepth⟩ := h.not_paren hk d i
  refine ⟨_, hparen, ?_⟩
  rw [ControlLanguage.marksFrom_append]
  by_cases hr : rest = []
  · rw [hr]; rfl
  · have hmode := h.mode_after hr d
    generalize Nesting.after rest.head? ⟨.outside, d⟩ w = n at hmode hdepth ⊢
    obtain ⟨mode, depth⟩ := n
    rw [show mode = .outside from hmode, show depth = d from hdepth]

theorem Scanned.isBlank (h : Scanned rest .space w) : ∀ c ∈ w, ControlLanguage.isBlank c = true := by
  cases h with
  | space h => exact h
  | ordinary hk => exact absurd rfl hk
  | quoting hk => simp at hk

theorem Scanned.parenOpen_eq (h : Scanned rest .parenOpen w) : w = ['('] := by
  cases h with
  | parenOpen => rfl
  | ordinary _ hk => exact absurd rfl hk
  | quoting hk => simp at hk

theorem Scanned.parenClose_eq (h : Scanned rest .parenClose w) : w = [')'] := by
  cases h with
  | parenClose => rfl
  | ordinary _ _ hk => exact absurd rfl hk
  | quoting hk => simp at hk

/-! ## One token after the other -/

theorem length_kindAt_le (first : Bool) (c : Char) (cs : Text) : (kindAt first c cs).2 ≤ cs.length := by
  cases first with
  | false => exact kindAt_le c cs
  | true =>
    rw [kindAt_true]
    split
    · have := wordLength_le (c :: cs)
      rw [List.length_cons] at this
      simp only; omega
    · exact kindAt_le c cs

theorem readFrom_token (h : kindAt first c (v ++ rest) = (k, v.length)) (pos : Nat) :
    readFrom first pos (c :: v ++ rest) =
      ⟨k, if k = .space then [' '] else c :: v, pos⟩ :: readFrom false (pos + (c :: v).length) rest := by
  rw [List.cons_append, readFrom_cons, h, List.take_left, List.drop_left, List.length_cons, Nat.add_assoc,
    Nat.add_comm 1]

@[elab_as_elim]
theorem readFrom_induction {motive : Bool → Nat → Text → Prop} (nil : ∀ first pos, motive first pos [])
    (token : ∀ first pos c v rest k, kindAt first c (v ++ rest) = (k, v.length) →
      motive false (pos + (c :: v).length) rest → motive first pos (c :: v ++ rest))
    (first : Bool) (pos : Nat) (t : Text) : motive first pos t := by
  induction hn : t.length using Nat.strongRecOn generalizing first pos t with
  | _ n ih =>
    cases t with
    | nil => exact nil first pos
    | cons c cs =>
      subst hn
      have hlen : (cs.take (kindAt first c cs).2).length = (kindAt first c cs).2 := by
        rw [List.length_take, Nat.min_eq_left (length_kindAt_le first c cs)]
      have hlt : (cs.drop (kindAt first c cs).2).length < (c :: cs).length := by
        simp only [List.length_drop, List.length_cons]; omega
      have := token first pos c (cs.take (kindAt first c cs).2) (cs.drop (kindAt first c cs).2)
        (kindAt first c cs).1
        (by rw [List.take_append_drop, hlen]) (ih _ hlt _ _ _ rfl)
      rwa [List.cons_append, List.take_append_drop] at this

theorem exists_first {u : Token} {us : List Token} {pos : Nat} (h : readFrom first pos t = u :: us) :
    ∃ c v rest, t = c :: v ++ rest ∧ kindAt first c (v ++ rest) = (u.kind, v.length) ∧
      u.text = (if u.kind = .space then [' '] else c :: v) ∧ u.position = pos ∧
        us = readFrom false (pos + (c :: v).length) rest := by
  induction first, pos, t using readFrom_induction with
  | nil first pos => rw [readFrom_nil] at h; cases h
  | token first pos c v rest k hk =>
    rw [readFrom_token hk] at h
    obtain ⟨rfl, rfl⟩ := List.cons.inj h
    exact ⟨c, v, rest, rfl, hk, rfl, rfl, rfl⟩

/-- A place in a text, read from the offset `pos` on, where the token `u` stands. -/
structure Place (t : Text) (pos : Nat) (u : Token) where
  before : Text
  first : Bool
  char : Char
  tail : Text
  rest : Text
  text_eq : t = before ++ (char :: tail ++ rest)
  kindAt_eq : kindAt first char (tail ++ rest) = (u.kind, tail.length)
  token_text : u.text = if u.kind = .space then [' '] else char :: tail
  position_eq : u.position = (pos + before.length : Nat)
  outside : ∀ d, (Nesting.after (some char) ⟨.outside, d⟩ before).mode = .outside

theorem Place.text_of_kind {u : Token} {pos : Nat} (p : Place t pos u) (hk : u.kind = .string) :
    u.text = p.char :: p.tail := by
  rw [p.token_text, if_neg (by simp [hk])]

theorem exists_place {front later : List Token} {u : Token} {pos : Nat}
    (h : readFrom first pos t = front ++ u :: later) :
    ∃ p : Place t pos u, later = readFrom false (pos + p.before.length + (p.char :: p.tail).length) p.rest := by
  induction first, pos, t using readFrom_induction generalizing front with
  | nil first pos =>
    rw [readFrom_nil] at h
    simp at h
  | token first pos c v rest k hk ih =>
    rw [readFrom_token hk] at h
    cases front with
    | nil =>
      obtain ⟨rfl, rfl⟩ := List.cons.inj h
      exact ⟨⟨[], first, c, v, rest, rfl, hk, rfl, rfl, fun _ => rfl⟩, rfl⟩
    | cons f front =>
      obtain ⟨-, h⟩ := List.cons.inj h
      obtain ⟨⟨before, first', x, w, later', rfl, hkind, htext, hpos, hout⟩, rfl⟩ := ih h
      have hhead : (before ++ (x :: w ++ later')).head? = before.head?.or (some x) := List.head?_append
      refine ⟨⟨c :: v ++ before, first', x, w, later', by rw [List.append_assoc], hkind, htext, ?_, fun d => ?_⟩,
        ?_⟩
      · rw [List.length_append, ← Nat.add_assoc]; exact hpos
      · have hmode := (scanned_of_kindAt hk).mode_after (by simp) d
        rw [hhead] at hmode
        exact (Nesting.mode_after_append hmode).trans (hout 0)
      · simp only [List.length_append, Nat.add_assoc]

end

end Token

end ControlLanguage
