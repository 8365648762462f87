import ControlLanguage.Proofs.Word

/-!
# The kind of a token

After the first token of a text the kind of a token depends on its own
characters and on how the text goes on behind it. `kindAt_congr` says how
little that is: another text may follow if it starts alike, or with a
character that ends every word.
-/

namespace ControlLanguage

namespace Token

def word (t : Text) : Text := t.take (wordLength t)

theorem wordLength_le (t : Text) : wordLength t ≤ t.length := by
  rw [wordLength_eq, ← length_marksFrom .start 0 t]
  exact (List.takeWhile_sublist _).length_le

theorem length_word (t : Text) : (word t).length = wordLength t := by
  rw [word, List.length_take, Nat.min_eq_left (wordLength_le t)]

theorem word_append {w rest : Text} (h : wordLength (w ++ rest) = w.length) : word (w ++ rest) = w := by
  rw [word, h, List.take_left]

theorem wordLength_pos {c : Char} (h : isDelimiter c = false) (cs : Text) : 0 < wordLength (c :: cs) := by
  rw [wordLength_eq, marks_eq, marksFrom_cons, List.takeWhile_cons_of_pos]
  · simp
  · rw [← Bool.not_eq_false, inWord_eq_false_iff]
    simp [h]

theorem endOfLiteral_pos (c : Char) (cs : Text) : 0 < (endOfLiteral (c :: cs)).1 := by
  rw [endOfLiteral]
  split
  · simp
  · simp

theorem index_lt_of_mem_marks {m : Mark} {t : Text} (h : m ∈ marks t) : m.index < t.length := by
  rw [marks_eq, marksFrom_eq_marksBefore] at h
  simpa using index_of_mem_marksBefore h

theorem endOfLiteral_le (t : Text) : (endOfLiteral t).1 ≤ t.length := by
  rw [endOfLiteral]
  split
  · next m hm => exact index_lt_of_mem_marks (List.mem_of_find?_eq_some hm)
  · exact Nat.le_refl _

/-! ## The rules, in order -/

def next (p : Char → Bool) (cs : Text) : Bool := cs.head?.any p

theorem kindAt_false (c : Char) (cs : Text) : kindAt false c cs =
    if isBlank c then (.space, (cs.takeWhile isBlank).length)
    else if c = '(' then (.parenOpen, 0)
    else if c = ')' then (.parenClose, 0)
    else if c = '\'' ∨ c = '"' then (.string, (endOfLiteral (c :: cs)).1 - 1)
    else if c = '&' ∧ next Char.isAlpha cs then (.variableRef, (cs.takeWhile continuesName).length)
    else if c = '*' ∧ next Char.isAlpha cs then starKind cs
    else if c = '%' ∧ next Char.isAlpha cs then (.function, (cs.takeWhile Char.isAlpha).length)
    else if next (fun d => pairOperators.contains (c, d)) cs then (.operator, 1)
    else if charOperators.contains c then (.operator, 0)
    else (if Word.isName (word (c :: cs)) then .keyword else .value, wordLength (c :: cs) - 1) := by
  rw [← length_word (c :: cs)]
  simp only [kindAt, Bool.false_and, Bool.false_eq_true, if_false, next, word]
  rfl

theorem isOrdinary_iff {c : Char} : isOrdinary c = true ↔
    isBlank c = false ∧ c ≠ '(' ∧ c ≠ ')' ∧ ¬(c = '\'' ∨ c = '"') := by
  simp [isOrdinary, isDelimiter, and_assoc]

theorem kindAt_true (c : Char) (cs : Text) : kindAt true c cs =
    if isOrdinary c = true ∧ Word.isCommand (word (c :: cs)) = true then
      (.command, wordLength (c :: cs) - 1)
    else kindAt false c cs := by
  by_cases ho : isOrdinary c = true
  · obtain ⟨hb, h1, h2, h3⟩ := isOrdinary_iff.mp ho
    rw [← length_word (c :: cs)]
    by_cases hw : Word.isCommand (word (c :: cs)) = true
    · rw [if_pos ⟨ho, hw⟩]
      rw [word] at hw ⊢
      simp only [kindAt, hb, h1, h2, h3, Bool.true_and, hw, if_true, Bool.false_eq_true, if_false]
    · rw [if_neg (fun h => hw h.2)]
      rw [word] at hw
      simp only [kindAt, Bool.true_and, hw, Bool.false_and, Bool.false_eq_true, if_false]
  · rw [if_neg (fun h => ho h.1)]
    have := mt isOrdinary_iff.mpr ho
    simp only [kindAt]
    by_cases hb : isBlank c = true
    · simp only [hb, if_true]
    by_cases h1 : c = '('
    · simp only [h1, if_true]
    by_cases h2 : c = ')'
    · simp only [h2, if_true]
    by_cases h3 : c = '\'' ∨ c = '"'
    · simp only [h3, if_true]
    · exact absurd ⟨by simpa using hb, h1, h2, h3⟩ this

theorem kindAt_false_of_ne_command {first : Bool} {c : Char} {cs : Text} {k : TokenKind} {n : Nat}
    (h : kindAt first c cs = (k, n)) (hk : k ≠ .command) : kindAt false c cs = (k, n) := by
  cases first with
  | false => exact h
  | true =>
    rw [kindAt_true] at h
    split at h
    · exact absurd (congrArg Prod.fst h).symm hk
    · exact h

/-- The kinds of tokens with the characters that they start with. -/
inductive KindOf (c : Char) (cs : Text) : TokenKind × Nat → Prop
  | space : isBlank c = true → KindOf c cs (.space, (cs.takeWhile isBlank).length)
  | parenOpen : c = '(' → KindOf c cs (.parenOpen, 0)
  | parenClose : c = ')' → KindOf c cs (.parenClose, 0)
  | string : c = '\'' ∨ c = '"' → KindOf c cs (.string, (endOfLiteral (c :: cs)).1 - 1)
  | variableRef : c = '&' → KindOf c cs (.variableRef, (cs.takeWhile continuesName).length)
  | wordOperator : c = '*' → KindOf c cs (.operator, (cs.takeWhile continuesName).length)
  | library : c = '*' → KindOf c cs (.value, wordLength (c :: cs) - 1)
  | symbolic : c = '*' → KindOf c cs (.symbolic, (cs.takeWhile continuesName).length)
  | function : c = '%' → KindOf c cs (.function, (cs.takeWhile Char.isAlpha).length)
  | pair : next (fun d => pairOperators.contains (c, d)) cs = true → KindOf c cs (.operator, 1)
  | char : charOperators.contains c = true → KindOf c cs (.operator, 0)
  | keyword : isOrdinary c = true → Word.isName (word (c :: cs)) = true →
      KindOf c cs (.keyword, wordLength (c :: cs) - 1)
  | value : isOrdinary c = true → Word.isName (word (c :: cs)) = false →
      KindOf c cs (.value, wordLength (c :: cs) - 1)

theorem kindOf {c : Char} {cs : Text} {r : TokenKind × Nat} (h : kindAt false c cs = r) :
    KindOf c cs r := by
  subst h
  rw [kindAt_false]
  by_cases hb : isBlank c = true
  · rw [if_pos hb]; exact .space hb
  by_cases h1 : c = '('
  · rw [if_neg hb, if_pos h1]; exact .parenOpen h1
  by_cases h2 : c = ')'
  · rw [if_neg hb, if_neg h1, if_pos h2]; exact .parenClose h2
  by_cases h3 : c = '\'' ∨ c = '"'
  · rw [if_neg hb, if_neg h1, if_neg h2, if_pos h3]; exact .string h3
  rw [if_neg hb, if_neg h1, if_neg h2, if_neg h3]
  have ho : isOrdinary c = true := isOrdinary_iff.mpr ⟨by simpa using hb, h1, h2, h3⟩
  by_cases h4 : c = '&' ∧ next Char.isAlpha cs = true
  · rw [if_pos h4]; exact .variableRef h4.1
  by_cases h5 : c = '*' ∧ next Char.isAlpha cs = true
  · rw [if_neg h4, if_pos h5]
    obtain ⟨rfl, -⟩ := h5
    simp only [starKind]
    split
    · exact .wordOperator rfl
    · split
      · exact .library rfl
      · exact .symbolic rfl
  by_cases h6 : c = '%' ∧ next Char.isAlpha cs = true
  · rw [if_neg h4, if_neg h5, if_pos h6]; exact .function h6.1
  rw [if_neg h4, if_neg h5, if_neg h6]
  by_cases h7 : next (fun d => pairOperators.contains (c, d)) cs = true
  · rw [if_pos h7]; exact .pair h7
  by_cases h8 : charOperators.contains c = true
  · rw [if_neg h7, if_pos h8]; exact .char h8
  rw [if_neg h7, if_neg h8]
  by_cases hn : Word.isName (word (c :: cs)) = true
  · rw [if_pos hn]; exact .keyword ho hn
  · rw [if_neg hn]; exact .value ho (by simpa using hn)

theorem kindAt_ne_command (c : Char) (cs : Text) : (kindAt false c cs).1 ≠ .command := by
  generalize hr : kindAt false c cs = r
  cases kindOf hr <;> simp

theorem length_takeWhile_le (p : Char → Bool) (cs : Text) : (cs.takeWhile p).length ≤ cs.length :=
  (List.takeWhile_sublist p).length_le

theorem kindAt_le (c : Char) (cs : Text) : (kindAt false c cs).2 ≤ cs.length := by
  have hw := wordLength_le (c :: cs)
  have hl := endOfLiteral_le (c :: cs)
  simp only [List.length_cons] at hw hl
  generalize hr : kindAt false c cs = r
  cases kindOf hr with
  | space => exact length_takeWhile_le ..
  | parenOpen => exact Nat.zero_le _
  | parenClose => exact Nat.zero_le _
  | string => simp only; omega
  | variableRef => exact length_takeWhile_le ..
  | wordOperator => exact length_takeWhile_le ..
  | library => simp only; omega
  | symbolic => exact length_takeWhile_le ..
  | function => exact length_takeWhile_le ..
  | pair h =>
    cases cs with
    | nil => cases h
    | cons => simp
  | char => exact Nat.zero_le _
  | keyword => simp only; omega
  | value => simp only; omega

/-! ## What may follow instead -/

theorem Replaces.append {rest' rest : Text} (h : Replaces rest' rest) (cs : Text) :
    Replaces (cs ++ rest') (cs ++ rest) := by
  cases cs with
  | nil => exact h
  | cons c cs => exact .inl rfl

theorem takeWhile_congr {p : Char → Bool} {cs rest rest' : Text} (hr : Replaces rest' rest)
    (hp : ∀ c, isDelimiter c = true → p c = false)
    (h : ((cs ++ rest).takeWhile p).length = cs.length) :
    ((cs ++ rest').takeWhile p).length = cs.length := by
  rw [takeWhile_append_length_iff] at h ⊢
  exact ⟨h.1, hr.head_any hp h.2⟩

theorem takeWhile_append_of_not_all {p : Char → Bool} {cs : Text} (h : cs.all p = false) (rest : Text) :
    (cs ++ rest).takeWhile p = cs.takeWhile p ∧ (cs.takeWhile p).length < cs.length := by
  have hlt : (cs.takeWhile p).length < cs.length := by
    refine Nat.lt_of_le_of_ne (length_takeWhile_le p cs) fun he => ?_
    have := (takeWhile_append_length_iff (p := p) (a := cs) (b := [])).mp (by simpa using he)
    rw [h] at this; cases this.1
  rw [List.takeWhile_append, if_neg (by omega)]
  exact ⟨rfl, hlt⟩

theorem wordLength_star {cs rest : Text} (h : wordLength ('*' :: (cs ++ rest)) - 1 = cs.length) :
    wordLength ('*' :: cs ++ rest) = ('*' :: cs).length := by
  have := wordLength_pos (c := '*') (by decide) (cs ++ rest)
  rw [List.cons_append, List.length_cons]; omega

/-- The token is a run of name characters, and the run ends where the token ends. -/
theorem starKind_congr_of_all {cs rest rest' : Text} {k : TokenKind} (hr : Replaces rest' rest)
    (hall : cs.all continuesName = true) (h : starKind (cs ++ rest) = (k, cs.length)) :
    starKind (cs ++ rest') = (k, cs.length) := by
  have hrun : ∀ r : Text, r.head?.any continuesName = false → (cs ++ r).takeWhile continuesName = cs :=
    fun r hn => takeWhile_append_eq (takeWhile_append_length_iff.mpr ⟨hall, hn⟩)
  have hend : rest.head?.any continuesName = false := by
    simp only [starKind] at h
    have hl := fun he : ((cs ++ rest).takeWhile continuesName).length = cs.length =>
      (takeWhile_append_length_iff.mp he).2
    split at h
    · exact hl (congrArg Prod.snd h)
    · split at h
      · rcases (wordLength_append_iff.mp (wordLength_star (congrArg Prod.snd h))).2 with rfl | ⟨_, hd⟩
        · rfl
        · cases rest with
          | nil => rfl
          | cons d r => exact continuesName_of_isDelimiter hd
      · exact hl (congrArg Prod.snd h)
  have hend' := hr.head_any (fun c => continuesName_of_isDelimiter) hend
  simp only [starKind, hrun _ hend, hrun _ hend', List.drop_left] at h ⊢
  split at h
  · next ho => rw [if_pos ho]; exact h
  · next ho =>
    rw [if_neg ho]
    split at h
    · next hs =>
      rcases (wordLength_append_iff.mp (wordLength_star (congrArg Prod.snd h))).2 with rfl | ⟨_, hd⟩
      · cases hs
      · rw [startsDelimited, hs] at hd; exact absurd hd (by decide)
    · next hs =>
      have hs' := hr.head_any (p := (· == '/')) (by intro c hc; rcases isDelimiter_iff.mp hc with
        rfl | rfl | rfl | rfl <;> rfl) (by cases rest <;> simp_all)
      rw [if_neg (by cases rest' <;> simp_all)]
      exact h

/-- The run of name characters ends inside the token, so the token goes on as a word. -/
theorem starKind_congr_of_not_all {cs rest rest' : Text} {k : TokenKind} (hr : Replaces rest' rest)
    (hall : cs.all continuesName = false) (h : starKind (cs ++ rest) = (k, cs.length)) :
    starKind (cs ++ rest') = (k, cs.length) := by
  have hrun := takeWhile_append_of_not_all hall
  have hlt := (hrun rest).2
  have hdrop : ∀ r : Text, ((cs ++ r).drop (cs.takeWhile continuesName).length).head? =
      (cs.drop (cs.takeWhile continuesName).length).head? := by
    intro r
    rw [List.drop_append_of_le_length (Nat.le_of_lt hlt), List.head?_append]
    cases hd : cs.drop (cs.takeWhile continuesName).length with
    | nil => rw [List.drop_eq_nil_iff] at hd; omega
    | cons d ds => rfl
  simp only [starKind, (hrun rest).1, (hrun rest').1, hdrop] at h ⊢
  split at h
  · have := congrArg Prod.snd h; simp only at this; omega
  · next ho =>
    rw [if_neg ho]
    split at h
    · next hs =>
      obtain ⟨rfl, hl⟩ := Prod.mk.inj h
      have hw := wordLength_congr (w := '*' :: cs) hr (wordLength_star hl)
      rw [List.cons_append] at hw
      rw [if_pos hs, hw]
      rfl
    · have := congrArg Prod.snd h; simp only at this; omega

theorem starKind_congr {cs rest rest' : Text} {k : TokenKind} (hr : Replaces rest' rest)
    (h : starKind (cs ++ rest) = (k, cs.length)) : starKind (cs ++ rest') = (k, cs.length) := by
  by_cases hall : cs.all continuesName = true
  · exact starKind_congr_of_all hr hall h
  · exact starKind_congr_of_not_all hr (by simpa using hall) h

theorem starKind_pos {cs : Text} (h : next Char.isAlpha cs = true) : 0 < (starKind cs).2 := by
  cases cs with
  | nil => cases h
  | cons c cs =>
    have hc : continuesName c = true := continuesName_of_isAlpha h
    have hw : wordLength ('*' :: c :: cs) ≠ 1 := by
      intro h1
      rcases ((wordLength_append_iff (w := ['*'])).mp h1).2 with hn | ⟨_, hd⟩
      · cases hn
      · rw [continuesName_of_isDelimiter hd] at hc; cases hc
    have hp := wordLength_pos (c := '*') (by decide) (c :: cs)
    simp only [starKind]
    split
    · simp [hc]
    · split
      · simp only; omega
      · simp [hc]

theorem pair_of_isDelimiter {c d : Char} (h : isDelimiter d = true) : pairOperators.contains (c, d) = false := by
  rcases isDelimiter_iff.mp h with rfl | rfl | rfl | rfl <;> simp [pairOperators]

theorem isAlpha_of_isDelimiter {c : Char} (h : isDelimiter c = true) : c.isAlpha = false := by
  rcases isDelimiter_iff.mp h with rfl | rfl | rfl | rfl <;> decide

theorem next_append_of_run {p : Char → Bool} (hp : ∀ c, c.isAlpha = true → p c = true) {cs rest : Text}
    (hn : next Char.isAlpha (cs ++ rest) = true)
    (h : ((cs ++ rest).takeWhile p).length = cs.length) (rest' : Text) :
    next Char.isAlpha (cs ++ rest') = true := by
  cases cs with
  | cons c cs => exact hn
  | nil =>
    have he := (takeWhile_append_length_iff.mp h).2
    cases rest with
    | nil => cases hn
    | cons c r =>
      have := hp c hn
      rw [List.head?_cons, Option.any_some, this] at he; cases he

theorem kindAt_congr {c : Char} {cs rest rest' : Text} {k : TokenKind} (hr : Replaces rest' rest)
    (hk : k ≠ .space) (h : kindAt false c (cs ++ rest) = (k, cs.length)) :
    kindAt false c (cs ++ rest') = (k, cs.length) := by
  have hn : ∀ p : Char → Bool, (∀ d, isDelimiter d = true → p d = false) →
      next p (cs ++ rest) = false → next p (cs ++ rest') = false :=
    fun p hp => (Replaces.append hr cs).head_any hp
  -- a rule that did not apply before does not apply after, since no delimiter starts a token of it
  have hna : ∀ a : Char, ¬(c = a ∧ next Char.isAlpha (cs ++ rest) = true) →
      ¬(c = a ∧ next Char.isAlpha (cs ++ rest') = true) := by
    intro a hna ⟨hc, ha⟩
    rw [hn _ (fun _ => isAlpha_of_isDelimiter) (by simpa [hc] using hna)] at ha
    cases ha
  rw [kindAt_false] at h ⊢
  by_cases hb : isBlank c = true
  · rw [if_pos hb] at h; exact absurd (congrArg Prod.fst h).symm hk
  rw [if_neg hb] at h ⊢
  by_cases h1 : c = '('
  · rw [if_pos h1] at h ⊢; exact h
  rw [if_neg h1] at h ⊢
  by_cases h2 : c = ')'
  · rw [if_pos h2] at h ⊢; exact h
  rw [if_neg h2] at h ⊢
  by_cases h3 : c = '\'' ∨ c = '"'
  · rw [if_pos h3] at h ⊢
    obtain ⟨rfl, hl⟩ := Prod.mk.inj h
    have hl' : (endOfLiteral (c :: cs ++ rest)).1 = (c :: cs).length := by
      have := endOfLiteral_pos c (cs ++ rest)
      rw [List.cons_append, List.length_cons]; omega
    rw [← List.cons_append, endOfLiteral_congr (List.cons_ne_nil c cs) hr hl']
    rfl
  rw [if_neg h3] at h ⊢
  by_cases h4 : c = '&' ∧ next Char.isAlpha (cs ++ rest) = true
  · rw [if_pos h4] at h
    obtain ⟨rfl, hl⟩ := Prod.mk.inj h
    rw [if_pos ⟨h4.1, next_append_of_run (fun _ => continuesName_of_isAlpha) h4.2 hl rest'⟩,
      takeWhile_congr hr (fun _ => continuesName_of_isDelimiter) hl]
  rw [if_neg h4] at h
  rw [if_neg (hna _ h4)]
  by_cases h5 : c = '*' ∧ next Char.isAlpha (cs ++ rest) = true
  · rw [if_pos h5] at h
    have hs := starKind_congr hr h
    have hn' : next Char.isAlpha (cs ++ rest') = true := by
      cases cs with
      | cons d ds => exact h5.2
      | nil =>
        have := starKind_pos h5.2
        rw [h] at this; cases this
    rw [if_pos ⟨h5.1, hn'⟩]
    exact hs
  rw [if_neg h5] at h
  rw [if_neg (hna _ h5)]
  by_cases h6 : c = '%' ∧ next Char.isAlpha (cs ++ rest) = true
  · rw [if_pos h6] at h
    obtain ⟨rfl, hl⟩ := Prod.mk.inj h
    rw [if_pos ⟨h6.1, next_append_of_run (fun _ => id) h6.2 hl rest'⟩,
      takeWhile_congr hr (fun _ => isAlpha_of_isDelimiter) hl]
  rw [if_neg h6] at h
  rw [if_neg (hna _ h6)]
  by_cases h7 : next (fun d => pairOperators.contains (c, d)) (cs ++ rest) = true
  · rw [if_pos h7] at h
    have hl := congrArg Prod.snd h
    cases cs with
    | nil => cases hl
    | cons d ds => rw [if_pos (show next _ (d :: ds ++ rest') = true from h7)]; exact h
  rw [if_neg h7] at h
  rw [if_neg (by rw [hn _ (fun _ => pair_of_isDelimiter) (by simpa using h7)]; exact Bool.false_ne_true)]
  by_cases h8 : charOperators.contains c = true
  · rw [if_pos h8] at h ⊢; exact h
  rw [if_neg h8] at h ⊢
  have ho : isOrdinary c = true := isOrdinary_iff.mpr ⟨by simpa using hb, h1, h2, h3⟩
  have hl : wordLength (c :: cs ++ rest) = (c :: cs).length := by
    have := congrArg Prod.snd h
    have := wordLength_pos (not_isDelimiter_of_isOrdinary ho) (cs ++ rest)
    simp only [List.cons_append, List.length_cons] at *; omega
  have hl' := wordLength_congr hr hl
  rw [← List.cons_append] at h ⊢
  rw [word_append hl, hl] at h
  rw [word_append hl', hl']
  exact h

end Token

end ControlLanguage
