import ControlLanguage.Proofs.Token.Kind

/-!
# Reading tokens back

Tokens are put one after the other as text and read again. `Reads` says of
each that it is read as itself in front of what follows it. The tokens of
any text have this property, also after every run of blanks has become a
single blank, and tokens that have it come back unchanged.
-/

namespace ControlLanguage

namespace Token

/-- A token that is read as itself in front of `rest`. -/
def Stands (t : Token) (rest : Text) : Prop :=
  ∃ c cs, t.text = c :: cs ∧ kindAt false c (cs ++ rest) = (t.kind, cs.length) ∧
    (t.kind = .space → t.text = [' '])

/-- Tokens that are read one after the other in front of `rest`. -/
def Reads : List Token → Text → Prop
  | [], _ => True
  | t :: ts, rest => t.Stands (joinTokens ts ++ rest) ∧ Reads ts rest

theorem isSpace_iff {t : Token} : t.isSpace = true ↔ t.kind = .space := beq_iff_eq

theorem joinTokens_cons (t : Token) (ts : List Token) : joinTokens (t :: ts) = t.text ++ joinTokens ts := rfl

theorem joinTokens_append (ts us : List Token) :
    joinTokens (ts ++ us) = joinTokens ts ++ joinTokens us := List.flatMap_append

theorem reads_append {ts us : List Token} {rest : Text} :
    Reads (ts ++ us) rest ↔ Reads ts (joinTokens us ++ rest) ∧ Reads us rest := by
  induction ts with
  | nil => simp [Reads]
  | cons t ts ih =>
    rw [List.cons_append, Reads, Reads, ih, joinTokens_append, List.append_assoc, and_assoc]

/-! ## What may follow -/

section
variable {t : Token} {ts : List Token} {rest rest' : Text}

theorem Stands.ne_nil (h : t.Stands rest) : t.text ≠ [] := by
  obtain ⟨c, cs, ht, _⟩ := h
  rw [ht]; exact List.cons_ne_nil c cs

theorem kindAt_blank {c : Char} (h : isBlank c = true) (cs : Text) :
    kindAt false c cs = (.space, (cs.takeWhile isBlank).length) := by
  rw [kindAt_false, if_pos h]

theorem stands_space_iff (h : t.kind = .space) :
    t.Stands rest ↔ t.text = [' '] ∧ next isBlank rest = false := by
  constructor
  · rintro ⟨c, cs, ht, hk, hs⟩
    rw [hs h, List.cons.injEq] at ht
    obtain ⟨rfl, rfl⟩ := ht
    rw [kindAt_blank (by decide), Prod.mk.injEq] at hk
    exact ⟨hs h, (takeWhile_append_length_iff.mp hk.2).2⟩
  · rintro ⟨ht, hb⟩
    refine ⟨' ', [], ht, ?_, fun _ => ht⟩
    rw [kindAt_blank (by decide), h, takeWhile_append_length_iff.mpr ⟨rfl, hb⟩]

theorem Stands.congr (h : t.Stands rest) (hr : Replaces rest' rest) (hk : t.isSpace = false) :
    t.Stands rest' := by
  obtain ⟨c, cs, ht, hc, hs⟩ := h
  exact ⟨c, cs, ht, kindAt_congr hr (mt isSpace_iff.mpr (by simp [hk])) hc, hs⟩

theorem Stands.congr_head (h : t.Stands rest) (hh : rest'.head? = rest.head?) : t.Stands rest' := by
  by_cases hk : t.kind = .space
  · rw [stands_space_iff hk] at h ⊢
    rw [next, hh]; exact h
  · exact h.congr (.inl hh) (by rw [← Bool.not_eq_true, isSpace_iff]; exact hk)

theorem head_append_of_reads (h : Reads ts rest) (hn : ts ≠ []) (rest' : Text) :
    (joinTokens ts ++ rest').head? = (joinTokens ts ++ rest).head? := by
  cases ts with
  | nil => exact absurd rfl hn
  | cons t ts =>
    obtain ⟨c, cs, ht, _⟩ := h.1
    rw [joinTokens_cons, ht]; rfl

theorem Reads.congr (h : Reads ts rest) (hr : Replaces rest' rest)
    (hl : ∀ t, ts.getLast? = some t → t.isSpace = false) : Reads ts rest' := by
  induction ts with
  | nil => trivial
  | cons t ts ih =>
    obtain ⟨ht, hts⟩ := h
    cases ts with
    | nil => exact ⟨ht.congr hr (hl t rfl), trivial⟩
    | cons u us =>
      refine ⟨ht.congr_head (head_append_of_reads hts (List.cons_ne_nil u us) rest'), ih hts ?_⟩
      intro v hv
      exact hl v (by rw [List.getLast?_cons_cons]; exact hv)

/-! ## Kinds and texts -/

theorem Stands.parenOpen (h : t.Stands rest) (hk : t.kind = .parenOpen) : t.text = ['('] := by
  obtain ⟨c, cs, ht, hc, -⟩ := h
  rw [hk] at hc
  generalize hr : (TokenKind.parenOpen, cs.length) = r at hc
  cases kindOf hc <;> simp only [Prod.mk.injEq, reduceCtorEq, false_and] at hr
  rename_i h
  rw [ht, h, List.eq_nil_of_length_eq_zero hr.2]

theorem Stands.parenClose (h : t.Stands rest) (hk : t.kind = .parenClose) : t.text = [')'] := by
  obtain ⟨c, cs, ht, hc, -⟩ := h
  rw [hk] at hc
  generalize hr : (TokenKind.parenClose, cs.length) = r at hc
  cases kindOf hc <;> simp only [Prod.mk.injEq, reduceCtorEq, false_and] at hr
  rename_i h
  rw [ht, h, List.eq_nil_of_length_eq_zero hr.2]

theorem wordLength_of_kindAt {c : Char} {cs : Text} (hd : isOrdinary c = true)
    (h : wordLength (c :: (cs ++ rest)) - 1 = cs.length) :
    wordLength (c :: cs ++ rest) = (c :: cs).length := by
  have := wordLength_pos (not_isDelimiter_of_isOrdinary hd) (cs ++ rest)
  rw [List.cons_append, List.length_cons]; omega

theorem Stands.isName (h : t.Stands rest) (hk : t.kind = .keyword) : Word.isName t.text = true := by
  obtain ⟨c, cs, ht, hc, -⟩ := h
  rw [hk] at hc
  generalize hr : (TokenKind.keyword, cs.length) = r at hc
  cases kindOf hc <;> simp only [Prod.mk.injEq, reduceCtorEq, false_and] at hr
  rename_i ho hn
  rw [← List.cons_append, word_append (wordLength_of_kindAt ho hr.2.symm)] at hn
  rw [ht]; exact hn

theorem Stands.not_isName (h : t.Stands rest) (hk : t.kind = .value) : Word.isName t.text = false := by
  obtain ⟨c, cs, ht, hc, -⟩ := h
  rw [hk] at hc
  generalize hr : (TokenKind.value, cs.length) = r at hc
  cases kindOf hc <;> simp only [Prod.mk.injEq, reduceCtorEq, false_and] at hr
  · rename_i hs
    subst hs
    rw [ht, Word.isName, show startsName '*' = false by decide]; rfl
  · rename_i ho hn
    rw [← List.cons_append, word_append (wordLength_of_kindAt ho hr.2.symm)] at hn
    rw [ht]; exact hn

theorem Stands.head_not_blank (h : t.Stands rest) (hk : t.isSpace = false) :
    next isBlank t.text = false := by
  obtain ⟨c, cs, ht, hc, -⟩ := h
  rw [ht, next, List.head?_cons, Option.any_some, ← Bool.not_eq_true]
  intro hb
  rw [kindAt_blank hb, Prod.mk.injEq] at hc
  rw [isSpace, ← hc.1] at hk; cases hk

end

/-! ## Tokens that stand -/

section
variable {rest : Text} (pos : Int)

theorem stands_space (h : next isBlank rest = false) : (Token.mk .space [' '] pos).Stands rest :=
  (stands_space_iff rfl).mpr ⟨rfl, h⟩

theorem stands_parenOpen : (Token.mk .parenOpen ['('] pos).Stands rest :=
  ⟨'(', [], rfl, by rw [kindAt_false, if_neg (by decide), if_pos rfl]; rfl, by simp⟩

theorem stands_parenClose : (Token.mk .parenClose [')'] pos).Stands rest :=
  ⟨')', [], rfl, by rw [kindAt_false, if_neg (by decide), if_neg (by decide), if_pos rfl]; rfl, by simp⟩

theorem kindAt_startsName {c : Char} (h : startsName c = true) (cs : Text) : kindAt false c cs =
    (if Word.isName (word (c :: cs)) then .keyword else .value, wordLength (c :: cs) - 1) := by
  obtain ⟨hb, h1, h2, h3⟩ := isOrdinary_iff.mp (isOrdinary_of_continuesName (continuesName_of_startsName h))
  have hne : ∀ d : Char, startsName d = false → c ≠ d := by
    rintro d hd rfl; rw [h] at hd; cases hd
  have hop : c ∉ charOperators := by
    intro hm
    have hall : charOperators.all (!startsName ·) = true := by decide
    have := List.all_eq_true.mp hall c hm
    rw [h] at this; cases this
  have hpair : next (fun d => pairOperators.contains (c, d)) cs ≠ true := by
    cases cs with
    | nil => exact Bool.false_ne_true
    | cons d ds =>
      have : ∀ p ∈ pairOperators, p.1 ∈ charOperators := by decide
      exact fun hm => hop (this (c, d) (List.contains_iff_mem.mp hm))
  rw [kindAt_false, if_neg (by simp [hb]), if_neg h1, if_neg h2, if_neg h3,
    if_neg (fun h => hne '&' (by decide) h.1), if_neg (fun h => hne '*' (by decide) h.1),
    if_neg (fun h => hne '%' (by decide) h.1), if_neg hpair, if_neg (mt List.contains_iff_mem.mp hop)]

theorem stands_keyword {w : Text} (hw : Word.isName w = true) (hr : startsDelimited rest = true) :
    (Token.mk .keyword w pos).Stands rest := by
  cases w with
  | nil => cases hw
  | cons c cs =>
    have hl := wordLength_ordinary (Word.isOrdinary_of_isCommand (Word.isCommand_of_isName hw)) hr
    have hs : startsName c = true := by
      simp only [Word.isName, Bool.and_eq_true] at hw; exact hw.1
    refine ⟨c, cs, rfl, ?_, by simp⟩
    rw [kindAt_startsName hs, ← List.cons_append, word_append hl, hw, hl]; rfl

theorem symbolic_parts {c : Char} {cs : Text} (h : c :: cs ∈ symbolicLibraries) :
    c = '*' ∧ cs.all continuesName = true ∧ wordOperators.contains (Text.upper ('*' :: cs)) = false ∧
      next Char.isAlpha cs = true := by
  have : ∀ l ∈ symbolicLibraries, l.head? = some '*' ∧ l.tail.all continuesName = true ∧
      wordOperators.contains (Text.upper ('*' :: l.tail)) = false ∧ next Char.isAlpha l.tail = true := by
    decide
  simpa using this _ h

theorem stands_value {library name : Text} (hn : Word.isName name = true)
    (hl : Word.isName library = true ∨ library ∈ symbolicLibraries) (hr : startsDelimited rest = true) :
    (Token.mk .value (library ++ '/' :: name) pos).Stands rest := by
  have hlen := wordLength_ordinary (Word.isOrdinary_of_isCommand (Word.isCommand_upper_qualified hn hl)) hr
  cases library with
  | nil => exact absurd hl (by decide)
  | cons c cs =>
    refine ⟨c, cs ++ '/' :: name, rfl, ?_, by simp⟩
    rcases hl with hl | hl
    · have hs : startsName c = true := by
        simp only [Word.isName, Bool.and_eq_true] at hl; exact hl.1
      rw [kindAt_startsName hs, ← List.cons_append, ← List.cons_append, word_append hlen,
        Word.not_isName_qualified, hlen]
      rfl
    · obtain ⟨rfl, hrun, hop, ha⟩ := symbolic_parts hl
      have htake : (cs ++ '/' :: name ++ rest).takeWhile continuesName = cs := by
        rw [List.append_assoc]
        exact takeWhile_append_eq (takeWhile_append_length_iff.mpr ⟨hrun, show continuesName '/' = false by decide⟩)
      have hnext : next Char.isAlpha (cs ++ '/' :: name ++ rest) = true := by
        cases cs with
        | nil => cases ha
        | cons d ds => exact ha
      rw [kindAt_false, if_neg (by decide), if_neg (by decide), if_neg (by decide), if_neg (by decide),
        if_neg (fun h => absurd h.1 (by decide)), if_pos ⟨rfl, hnext⟩]
      have hdrop : ((cs ++ '/' :: name ++ rest).drop cs.length).head? = some '/' := by
        rw [List.append_assoc, List.drop_left]; rfl
      have hlen' : wordLength ('*' :: (cs ++ '/' :: name ++ rest)) = (cs ++ '/' :: name).length + 1 := hlen
      simp only [starKind, htake, hop, hdrop, hlen', Bool.false_eq_true, if_false, if_true]
      rfl

end

/-! ## Reading back -/

theorem readFrom_stands {t : Token} {rest : Text} (h : t.Stands rest) (pos : Nat) :
    readFrom false pos (t.text ++ rest) =
      ⟨t.kind, t.text, pos⟩ :: readFrom false (pos + t.text.length) rest := by
  obtain ⟨c, cs, ht, hk, hs⟩ := h
  rw [ht, List.cons_append, readFrom_cons, hk]
  simp only [List.take_left, List.drop_left, List.length_cons]
  rw [Nat.add_assoc, Nat.add_comm 1]
  split
  · next hsp => rw [← hs hsp, ht]
  · rfl

theorem bare_readFrom {ts : List Token} (h : Reads ts []) (pos : Nat) :
    (readFrom false pos (joinTokens ts)).map bare = ts.map bare := by
  induction ts generalizing pos with
  | nil => rw [show joinTokens [] = [] from rfl, readFrom_nil]
  | cons t ts ih =>
    have ht := h.1
    rw [List.append_nil] at ht
    rw [joinTokens_cons, readFrom_stands ht, List.map_cons, List.map_cons, ih h.2]
    rfl

theorem kindAt_space_iff {c : Char} {cs : Text} :
    (kindAt false c cs).1 = .space ↔ isBlank c = true := by
  constructor
  · intro h
    generalize hr : kindAt false c cs = r at h
    cases kindOf hr <;> first | assumption | cases h
  · intro h; rw [kindAt_blank h]

theorem head_joinTokens (pos : Nat) (c : Char) (cs : Text) :
    (joinTokens (readFrom false pos (c :: cs))).head? = some (if isBlank c = true then ' ' else c) := by
  rw [readFrom_cons, joinTokens_cons]
  simp only [kindAt_space_iff]
  split <;> rfl

theorem replaces_joinTokens (pos : Nat) (t : Text) : Replaces (joinTokens (readFrom false pos t)) t := by
  cases t with
  | nil => rw [readFrom_nil]; exact .inl rfl
  | cons c cs =>
    have h := head_joinTokens pos c cs
    split at h
    · refine .inr (.inr ⟨List.cons_ne_nil c cs, ?_⟩)
      rw [startsDelimited, h]; rfl
    · exact .inl h

theorem next_isBlank_joinTokens (pos : Nat) {t : Text} (h : next isBlank t = false) :
    next isBlank (joinTokens (readFrom false pos t)) = false := by
  cases t with
  | nil => rw [readFrom_nil]; rfl
  | cons c cs =>
    have hc : isBlank c = false := h
    rw [next, head_joinTokens, if_neg (by simp [hc])]
    exact h

theorem next_dropWhile (p : Char → Bool) (t : Text) : next p (t.dropWhile p) = false := by
  rw [next]
  cases h : t.dropWhile p with
  | nil => rfl
  | cons c cs =>
    have := List.head?_dropWhile_not p t
    rw [h] at this
    simpa using this

theorem drop_length_takeWhile (p : Char → Bool) (t : Text) :
    t.drop (t.takeWhile p).length = t.dropWhile p := by
  have h := List.takeWhile_append_dropWhile (p := p) (l := t)
  calc t.drop (t.takeWhile p).length
      = (t.takeWhile p ++ t.dropWhile p).drop (t.takeWhile p).length := by rw [h]
    _ = t.dropWhile p := List.drop_left

/-- The tokens of a text stand, with one blank for every run of blanks. -/
theorem reads_readFrom (pos : Nat) (t : Text) : Reads (readFrom false pos t) [] := by
  induction hn : t.length using Nat.strongRecOn generalizing pos t with
  | _ n ih =>
    cases t with
    | nil => rw [readFrom_nil]; trivial
    | cons c cs =>
      subst hn
      rw [readFrom_cons]
      refine ⟨?_, ih _ (by simp only [List.length_drop, List.length_cons]; omega) _ _ rfl⟩
      rw [List.append_nil]
      by_cases hb : isBlank c = true
      · rw [stands_space_iff (kindAt_space_iff.mpr hb), if_pos (kindAt_space_iff.mpr hb)]
        refine ⟨rfl, next_isBlank_joinTokens _ ?_⟩
        rw [kindAt_blank hb, drop_length_takeWhile]
        exact next_dropWhile isBlank cs
      · have hk : (kindAt false c cs).1 ≠ .space := mt kindAt_space_iff.mp hb
        refine ⟨c, cs.take (kindAt false c cs).2, if_neg hk, ?_, fun h => absurd h hk⟩
        have hle : (cs.take (kindAt false c cs).2).length = (kindAt false c cs).2 := by
          rw [List.length_take, Nat.min_eq_left (kindAt_le c cs)]
        refine kindAt_congr (replaces_joinTokens _ _) hk ?_
        rw [List.take_append_drop, hle]

/-! ## Texts that start with a command name -/

theorem ofText_command {w rest : Text} (hw : Word.isCommand w = true) (hr : startsDelimited rest = true) :
    ofText (w ++ rest) = ⟨.command, w, 0⟩ :: readFrom false w.length rest := by
  have ho := Word.isOrdinary_of_isCommand hw
  have hl := wordLength_ordinary ho hr
  cases w with
  | nil => exact absurd rfl (Word.ne_nil_of_isCommand hw)
  | cons c cs =>
    rw [List.all_cons, Bool.and_eq_true] at ho
    have hb : isBlank c = false := (isOrdinary_iff.mp ho.1).1
    have hk : kindAt true c (cs ++ rest) = (.command, cs.length) := by
      rw [kindAt_true, ← List.cons_append, word_append hl, hl, if_pos ⟨ho.1, hw⟩]; rfl
    rw [ofText, List.cons_append, List.takeWhile_cons_of_neg (by simp [hb]),
      List.dropWhile_cons_of_neg (by simp [hb]), readFrom_cons, hk]
    simp only [reduceCtorEq, if_false, List.take_left, List.drop_left, List.length_cons]
    rw [Nat.add_comm cs.length, List.length_nil, Nat.zero_add]
    rfl

theorem reads_ofText {text : Text} {t : Token} {ts : List Token} (h : ofText text = t :: ts)
    (hk : t.kind = .command) :
    Word.isCommand t.text = true ∧ startsDelimited (joinTokens ts) = true ∧ Reads ts [] := by
  unfold ofText at h
  cases hd : text.dropWhile isBlank with
  | nil => rw [hd, readFrom_nil] at h; cases h
  | cons c cs =>
    rw [hd, readFrom_cons, List.cons.injEq] at h
    obtain ⟨rfl, rfl⟩ := h
    rw [kindAt_true] at hk ⊢
    split at hk
    · next hc =>
      rw [if_pos hc]
      have hpos := wordLength_pos (not_isDelimiter_of_isOrdinary hc.1) cs
      obtain ⟨n, hn⟩ : ∃ n, wordLength (c :: cs) = n + 1 := ⟨_, (Nat.succ_pred_eq_of_pos hpos).symm⟩
      have hw : word (c :: cs) = c :: cs.take n := by rw [word, hn]; rfl
      have hend : startsDelimited (cs.drop n) = true := by
        have hsplit : wordLength (word (c :: cs) ++ cs.drop n) = (word (c :: cs)).length := by
          rw [length_word, hw, List.cons_append, List.take_append_drop]
        rcases (wordLength_append_iff.mp hsplit).2 with h | ⟨_, h⟩
        · rw [h]; rfl
        · exact h
      simp only [reduceCtorEq, if_false, hn, Nat.add_sub_cancel]
      refine ⟨by rw [← hw]; exact hc.2, ?_, reads_readFrom _ _⟩
      exact (replaces_joinTokens _ _).startsDelimited hend
    · exact absurd hk (kindAt_ne_command c cs)

end Token

end ControlLanguage
