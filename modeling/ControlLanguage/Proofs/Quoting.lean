import ControlLanguage.Proofs.Nesting.Cutting

/-!
# Quoting

A value that is quoted becomes one literal, which holds the value with its
quotes doubled. Most values that stay as they are keep the parentheses around
them a pair as well; the others are taken as they were written.
-/

namespace ControlLanguage

/-! ## Doubled quotes -/

def doubleQuotes (t : Text) : Text := t.flatMap fun c => if c == '\'' then ['\'', '\''] else [c]

def undoubleQuotes : Text → Text
  | '\'' :: '\'' :: t => '\'' :: undoubleQuotes t
  | c :: t => c :: undoubleQuotes t
  | [] => []

section
variable {c : Char} {t u v : Text} {allowed : List Text} {type declared : Text}

theorem quote_eq (t : Text) : quote t = '\'' :: (doubleQuotes t ++ ['\'']) := rfl

theorem doubleQuotes_cons (c : Char) (t : Text) :
    doubleQuotes (c :: t) = (if c == '\'' then ['\'', '\''] else [c]) ++ doubleQuotes t := List.flatMap_cons

theorem undoubleQuotes_doubleQuotes (t : Text) : undoubleQuotes (doubleQuotes t) = t := by
  induction t with
  | nil => simp [doubleQuotes, undoubleQuotes]
  | cons c t ih =>
    rw [doubleQuotes_cons]
    by_cases hc : c = '\''
    · subst hc; simp [undoubleQuotes, ih]
    · simp [hc, undoubleQuotes, ih]

theorem doubleQuotes_of_not_mem (h : '\'' ∉ t) : doubleQuotes t = t := by
  induction t with
  | nil => rfl
  | cons c t ih =>
    simp only [List.mem_cons, not_or] at h
    rw [doubleQuotes_cons, ih h.2]
    simp [Ne.symm h.1]

/-- Doubled quotes do not close the literal that they stand in. -/
theorem scan_doubleQuotes (t : Text) (next : Option Char) (i : Nat) :
    (∀ m ∈ marksBefore next ⟨.single false, 0⟩ i (doubleQuotes t), m.role ≠ .quoteClose) ∧
      Nesting.after next ⟨.single false, 0⟩ (doubleQuotes t) = ⟨.single false, 0⟩ := by
  induction t generalizing i with
  | nil => simp [doubleQuotes, marksBefore, Nesting.after]
  | cons c t ih =>
    rw [doubleQuotes_cons]
    by_cases hc : c = '\''
    · subst hc
      simpa [marksBefore, Nesting.after, Nesting.step] using ih (i + 2)
    · simpa [hc, marksBefore, Nesting.after, Nesting.step] using ih (i + 1)

theorem isEnclosed_iff {q : Char} : isEnclosed q t = true ↔ ∃ u, t = q :: (u ++ [q]) := by
  constructor
  · intro h
    simp only [isEnclosed, Bool.and_eq_true, decide_eq_true_eq, beq_iff_eq] at h
    obtain ⟨⟨hlen, hhead⟩, hlast⟩ := h
    obtain ⟨v, rfl⟩ := List.getLast?_eq_some_iff.mp hlast
    cases v with
    | nil => simp at hlen
    | cons c u =>
      simp only [List.cons_append, List.head?_cons, Option.some.injEq] at hhead
      exact ⟨u, by rw [hhead]; rfl⟩
  · intro h
    obtain ⟨u, rfl⟩ := h
    rw [isEnclosed, ← List.cons_append, List.getLast?_concat]
    simp

theorem isQuoted_quote (t : Text) : isQuoted (quote t) = true := by
  obtain ⟨hall, hend⟩ := scan_doubleQuotes t (some '\'') 1
  have hclose : endOfLiteral ('\'' :: doubleQuotes t ++ ['\'']) = (('\'' :: doubleQuotes t).length + 1, true) := by
    apply endOfLiteral_of_close
    · rw [marksBefore, List.forall_mem_cons]
      exact ⟨by simp [Nesting.step, Nesting.start], hall⟩
    · rw [Nesting.after, show (Nesting.start.step '\'' _).2 = ⟨.single false, 0⟩ from rfl, hend]
      simp [Nesting.step]
  rw [isQuoted, quote_eq, isEnclosed_iff.mpr ⟨_, rfl⟩, ← List.cons_append, hclose]
  simp

/-! ## Whole literals -/

theorem Nesting.mode_of_step_quoteClose {n : Nesting} {next : Option Char}
    (h : (n.step '\'' next).1 = .quoteClose) :
    n.mode = .single false := by
  obtain ⟨mode, d⟩ := n
  cases mode with
  | outside => cases h
  | single escaped =>
    cases escaped with
    | false => rfl
    | true => cases h
  | double => cases h

/-- In a text that a quote follows and that does not end its literal the quotes stand in pairs. -/
theorem doubleQuotes_undoubleQuotes {d : Int} {i : Nat}
    (hv : ∀ m ∈ marksBefore (some '\'') ⟨.single false, d⟩ i t, m.role ≠ .quoteClose)
    (hend : (Nesting.after (some '\'') ⟨.single false, d⟩ t).mode = .single false) :
    doubleQuotes (undoubleQuotes t) = t := by
  fun_induction undoubleQuotes t generalizing i with
  | case1 t ih =>
    have hv' : ∀ m ∈ marksBefore (some '\'') ⟨.single false, d⟩ (i + 2) t, m.role ≠ .quoteClose := by
      simpa [marksBefore, Nesting.step] using hv
    have hend' : (Nesting.after (some '\'') ⟨.single false, d⟩ t).mode = .single false := by
      simpa [Nesting.after, Nesting.step] using hend
    rw [doubleQuotes_cons, ih hv' hend']
    rfl
  | case2 c t hpair ih =>
    have hc : c ≠ '\'' := by
      rintro rfl
      cases t with
      | nil => simp [Nesting.after, Nesting.step] at hend
      | cons x t =>
        have hx : x ≠ '\'' := fun hx => hpair t rfl (by rw [hx])
        simp [marksBefore, Nesting.step, hx] at hv
    have hv' : ∀ m ∈ marksBefore (some '\'') ⟨.single false, d⟩ (i + 1) t, m.role ≠ .quoteClose := by
      simpa [marksBefore, Nesting.step, hc] using hv
    have hend' : (Nesting.after (some '\'') ⟨.single false, d⟩ t).mode = .single false := by
      simpa [Nesting.after, Nesting.step, hc] using hend
    rw [doubleQuotes_cons, ih hv' hend', if_neg (by simpa using hc), List.singleton_append]
  | case3 => rfl

theorem exists_eq_quote (h : isQuoted t = true) : ∃ s, t = quote s := by
  obtain ⟨v, rfl, hhead, hv, hx⟩ := isQuoted_split h
  obtain ⟨u, rfl⟩ := List.head?_eq_some_iff.mp hhead
  rw [marksBefore, List.forall_mem_cons] at hv
  refine ⟨undoubleQuotes u, ?_⟩
  rw [quote_eq, doubleQuotes_undoubleQuotes hv.2 (Nesting.mode_of_step_quoteClose hx)]
  rfl

theorem quote_injective : Function.Injective quote := by
  intro s s' h
  rw [quote_eq, quote_eq] at h
  have hdoubled : doubleQuotes s = doubleQuotes s' := List.append_cancel_right (List.cons.inj h).2
  rw [← undoubleQuotes_doubleQuotes s, hdoubled, undoubleQuotes_doubleQuotes]

/-- A quote behind a literal makes a pair with its last one, and the literal goes on. -/
theorem length_lt_endOfLiteral (s u : Text) : (quote s).length < (endOfLiteral (quote s ++ '\'' :: u)).1 := by
  have hdoubled : quote s ++ '\'' :: u = '\'' :: doubleQuotes (s ++ ['\'']) ++ u := by
    simp [quote_eq, doubleQuotes]
  have hlen : ('\'' :: doubleQuotes (s ++ ['\''])).length = (quote s).length + 1 := by
    simp [quote_eq, doubleQuotes]
  have hnone :
      (marksBefore u.head? .start 0 ('\'' :: doubleQuotes (s ++ ['\'']))).find? (·.role == .quoteClose) = none := by
    rw [List.find?_eq_none, marksBefore, List.forall_mem_cons]
    refine ⟨by simp [Nesting.step, Nesting.start], fun m hm => ?_⟩
    simpa using (scan_doubleQuotes (s ++ ['\'']) u.head? 1).1 m hm
  rw [hdoubled, endOfLiteral, marks_eq, marksFrom_append, List.find?_append, hnone, Option.none_or]
  split
  · next m hm =>
    have := index_of_mem_marksFrom (List.mem_of_find?_eq_some hm)
    omega
  · rw [List.length_append, hlen]; omega

/-- The whole literals are the texts between quotes with the quotes in them doubled, each made from one text only.
Behind any text but one that starts with a quote, such a literal ends with its last quote. -/
theorem isQuoted_iff_quote (t : Text) : (isQuoted t = true ↔ ∃! s, t = quote s) ∧
    (isQuoted t = true → ∀ u : Text, endOfLiteral (t ++ u) = (t.length, true) ↔ u.head? ≠ some '\'') := by
  refine ⟨⟨fun h => ?_, fun ⟨s, hs, _⟩ => hs ▸ isQuoted_quote s⟩, fun h u =>
    ⟨fun hend hq => ?_, endOfLiteral_literal h⟩⟩
  · obtain ⟨s, rfl⟩ := exists_eq_quote h
    exact ⟨s, rfl, fun s' hs' => quote_injective hs'.symm⟩
  · obtain ⟨s, rfl⟩ := exists_eq_quote h
    obtain ⟨u, rfl⟩ := List.head?_eq_some_iff.mp hq
    have := length_lt_endOfLiteral s u
    rw [hend] at this
    exact Nat.lt_irrefl _ this

/-- A literal that ends in a doubled quote, in front of a blank and in front of one more quote. -/
theorem isQuoted_iff_quote_doubled : isQuoted "'it''s'''".toList = true ∧
    endOfLiteral "'it''s''' 'x'".toList = (9, true) ∧ endOfLiteral "'it''s''''x'".toList ≠ (9, true) := by
  have hquoted : isQuoted "'it''s'''".toList = true := by decide
  have hend := (isQuoted_iff_quote "'it''s'''".toList).2 hquoted
  exact ⟨hquoted, (hend " 'x'".toList).mpr (by decide), fun h => (hend "'x'".toList).mp h (by decide)⟩

/-! ## The literal of a value -/

/-- The text that a literal made from a value holds: without the quotes that the value has itself. -/
def quotedContent (t : Text) : Text := if isEnclosed '\'' t then (t.drop 1).dropLast else t

theorem standsBare_of_isQuoted (h : isQuoted t = true) : standsBare allowed type t = true := by
  simp [standsBare, h]

theorem literal_eq_quote (hs : literal v allowed declared ≠ v) (ht : literal v allowed declared ≠ Text.trim v) :
    literal v allowed declared = quote (quotedContent (Text.trim v)) := by
  have hempty : standsBare allowed (typeName declared) ['\'', '\''] = true := standsBare_of_isQuoted (by decide)
  unfold literal at hs ht ⊢
  simp only at hs ht ⊢
  by_cases hbare : (verbatimTypes.contains (typeName declared) ||
      standsBare allowed (typeName declared) (Text.trim v)) = true
  · rw [if_pos hbare] at ht
    exact absurd rfl ht
  · rw [if_neg hbare] at hs ht ⊢
    by_cases hexp : isExpression (Text.trim v) = true
    · rw [if_pos hexp] at hs
      exact absurd rfl hs
    · rw [if_neg hexp] at ht ⊢
      by_cases hnil : Text.trim v = [] ∨ Text.trim v = ['\'', '\'']
      · rw [if_pos hnil] at ht
        rcases hnil with hnil | hnil
        · exact absurd hnil.symm ht
        · rw [hnil, hempty, Bool.or_true] at hbare
          exact absurd rfl hbare
      · rw [if_neg hnil] at ht ⊢
        by_cases hnumber : Word.isNumber (Text.trim v) = true
        · rw [if_pos hnumber] at ht
          exact absurd rfl ht
        · rw [if_neg hnumber, quotedContent]
          split <;> rfl

/-! ## Values that are literals already -/

theorem trim_quote (t : Text) : Text.trim (quote t) = quote t := by
  rw [quote_eq]
  apply trim_eq_self
  · intro c hc
    obtain rfl : '\'' = c := by simpa using hc
    decide
  · intro c hc
    rw [← List.cons_append, List.getLast?_concat] at hc
    obtain rfl : '\'' = c := by simpa using hc
    decide

theorem literal_quote (t : Text) (allowed : List Text) (declared : Text) :
    literal (quote t) allowed declared = quote t := by
  have hbare : standsBare allowed (typeName declared) (quote t) = true := standsBare_of_isQuoted (isQuoted_quote t)
  rw [literal]
  simp only [trim_quote, hbare, Bool.or_true, if_true]

/-- White space around a value matters only where the value is written as it is, as expressions are. -/
theorem literal_trim (hs : literal v allowed declared ≠ v) :
    literal (Text.trim v) allowed declared = literal v allowed declared := by
  unfold literal at hs ⊢
  simp only [trim_trim] at hs ⊢
  by_cases hbare : (verbatimTypes.contains (typeName declared) ||
      standsBare allowed (typeName declared) (Text.trim v)) = true
  · rw [if_pos hbare, if_pos hbare]
  · rw [if_neg hbare] at hs
    by_cases hexp : isExpression (Text.trim v) = true
    · rw [if_pos hexp] at hs
      exact absurd rfl hs
    · rw [if_neg hexp, if_neg hexp]

/-- What is written for a value is written for itself: a literal is not quoted again, whatever quotes were in the
value. -/
theorem literal_literal (v : Text) (allowed : List Text) (declared : Text) :
    literal (literal v allowed declared) allowed declared = literal v allowed declared := by
  by_cases hs : literal v allowed declared = v
  · rw [hs, hs]
  · by_cases ht : literal v allowed declared = Text.trim v
    · calc literal (literal v allowed declared) allowed declared
        _ = literal (Text.trim v) allowed declared := by rw [ht]
        _ = literal v allowed declared := literal_trim hs
    · rw [literal_eq_quote hs ht, literal_quote]

/-! ## Values that stay as they are -/

/-- The characters that are not inert have no letter case: none is the upper case of another one. -/
theorem eq_of_mem_upperChar {e : Char} (hc : isInert c = false) (hm : c ∈ upperChar e) : e = c := by
  have hsmall : c.toNat < 65 := by
    rw [← Bool.not_eq_true, isInert_iff] at hc
    by_contra h
    apply hc
    refine ⟨?_, ?_, ?_, ?_⟩ <;>
    · intro he; subst he; exact h (by decide)
  by_contra hne
  have := le_toNat_of_mem_upperChar hm (Ne.symm hne)
  omega

theorem upperChar_of_not_isInert (hc : isInert c = false) : upperChar c = [c] := by
  by_contra h
  rw [← Bool.not_eq_true, isInert_iff] at hc
  apply hc
  refine ⟨?_, ?_, ?_, ?_⟩ <;>
  · intro he; subst he; exact h (by decide)

theorem isInert_of_upper_eq (hv : ∀ c ∈ v, isInert c = true) (h : Text.upper v = Text.upper t) :
    ∀ c ∈ t, isInert c = true := by
  intro c hc
  by_contra hn
  have hn : isInert c = false := by simpa using hn
  have hmem := Text.mem_upper_of_mem (upperChar_of_not_isInert hn) hc
  rw [← h] at hmem
  obtain ⟨e, he, hce⟩ := List.mem_flatMap.mp hmem
  rw [← eq_of_mem_upperChar hn hce, hv e he] at hn
  cases hn

theorem isOrdinary_of_isVariable (h : Word.isVariable t = true) : ∀ c ∈ t, isOrdinary c = true := by
  unfold Word.isVariable at h
  split at h
  · simp only [Bool.and_eq_true, List.all_eq_true] at h
    rw [List.forall_mem_cons]
    exact ⟨by decide, fun c hc => isOrdinary_of_continuesName (h.2 c hc)⟩
  · cases h

theorem isHexadecimal_cases (h : Word.isHexadecimal t = true) : ∃ x digits, t = x :: '\'' :: (digits ++ ['\'']) ∧
    (x = 'x' ∨ x = 'X') ∧ ∀ d ∈ digits, isHexDigit d = true := by
  unfold Word.isHexadecimal at h
  split at h
  · next x d ds =>
    simp only [Bool.and_eq_true, Bool.or_eq_true, beq_iff_eq] at h
    obtain ⟨⟨hx, hlast⟩, hdigits⟩ := h
    obtain ⟨digits, hds⟩ := List.getLast?_eq_some_iff.mp hlast
    rw [hds, List.dropLast_concat] at hdigits
    exact ⟨x, digits, by rw [hds], hx, List.all_eq_true.mp hdigits⟩
  · cases h

theorem selfContained_of_isHexadecimal (h : Word.isHexadecimal t = true) : SelfContained t := by
  obtain ⟨x, digits, rfl, hx, hdigits⟩ := isHexadecimal_cases h
  have hquote : '\'' :: (digits ++ ['\'']) = quote digits := by
    rw [quote_eq, doubleQuotes_of_not_mem]
    intro hq
    exact absurd (hdigits _ hq) (by decide)
  have hbody := SelfContained.literal (isQuoted_quote digits) (by simp) .nil
  rw [List.append_nil, ← hquote] at hbody
  apply SelfContained.char _ hbody
  rcases hx with hx | hx
  · rw [hx]; decide
  · rw [hx]; decide

theorem isOrdinary_of_isQualified (h : Word.isQualified t = true) : ∀ c ∈ t, isOrdinary c = true := by
  unfold Word.isQualified at h
  split at h
  · cases h
  · next library name hsplit =>
    simp only [Bool.and_eq_true, List.all_eq_true] at h
    rw [(Word.splitSlash_some hsplit).1, List.forall_mem_append, List.forall_mem_cons]
    refine ⟨fun c hc => ?_, by decide, fun c hc => ?_⟩
    · exact isOrdinary_of_continuesName (h.1.2 c hc)
    · exact isOrdinary_of_continuesName (h.2 c hc)

theorem isOrdinary_of_isSimpleName (h : Word.isSimpleName t = true) : ∀ c ∈ t, isOrdinary c = true := by
  rw [Word.isSimpleName, Bool.and_eq_true] at h
  exact List.all_eq_true.mp (Word.isOrdinary_of_isCommand (Word.isCommand_of_isName h.2))

theorem isOrdinary_of_isPeriodName (h : isPeriodName t = true) : ∀ c ∈ t, isOrdinary c = true := by
  unfold isPeriodName at h
  split at h
  · simp
  · simp only [Bool.and_eq_true, List.all_eq_true, Bool.or_eq_true, beq_iff_eq] at h
    rw [List.forall_mem_cons]
    refine ⟨isOrdinary_of_continuesName (continuesName_of_startsName h.1.2), fun c hc => ?_⟩
    rcases h.2 c hc with hname | hperiod
    · exact isOrdinary_of_continuesName hname
    · rw [hperiod]; decide

theorem isOrdinary_of_isNameValue (h : isNameValue t = true) (ht : Text.trim t = t) (hd : isEnclosed '"' t = false)
    (hq : isEnclosed '\'' t = false) : ∀ c ∈ t, isOrdinary c = true := by
  unfold isNameValue at h
  rw [ht] at h
  split at h
  · rw [List.forall_mem_cons]
    exact ⟨by decide, isOrdinary_of_isPeriodName h⟩
  · rw [hd, hq, Bool.false_or, Bool.false_or] at h
    exact isOrdinary_of_isPeriodName h

theorem isOrdinary_of_isNumber (h : Word.isNumber t = true) : ∀ c ∈ t, isOrdinary c = true := by
  have hdigit : ∀ c : Char, c.isDigit = true → isOrdinary c = true := by
    intro c hc
    have hname : isUpperName c = true := by simp [isUpperName, hc]
    exact isOrdinary_of_continuesName (continuesName_iff.mpr ⟨c, upperChar_of_isUpperName hname, hname⟩)
  have hunsigned : ∀ c ∈ (if t.head? = some '-' ∨ t.head? = some '+' then t.drop 1 else t),
      isOrdinary c = true := by
    unfold Word.isNumber at h
    generalize (if t.head? = some '-' ∨ t.head? = some '+' then t.drop 1 else t) = unsigned at h ⊢
    simp only [List.span_eq_takeWhile_dropWhile] at h
    rw [← List.takeWhile_append_dropWhile (p := (· != '.')) (l := unsigned), List.forall_mem_append]
    generalize hw : unsigned.takeWhile (· != '.') = whole at h ⊢
    generalize hf : unsigned.dropWhile (· != '.') = rest at h ⊢
    cases rest with
    | nil =>
      simp only [Bool.and_eq_true, List.all_eq_true] at h
      exact ⟨fun c hc => hdigit c (h.2 c hc), by simp⟩
    | cons d fraction =>
      simp only [Bool.and_eq_true, List.all_eq_true] at h
      have hd : d = '.' := by
        have := List.head?_dropWhile_not (· != '.') unsigned
        simpa [hf] using this
      rw [List.forall_mem_cons, hd]
      exact ⟨fun c hc => hdigit c (h.1.1.2 c hc), by decide, fun c hc => hdigit c (h.2 c hc)⟩
  split at hunsigned
  · next hsign =>
    obtain ⟨c, cs, rfl⟩ : ∃ c cs, t = c :: cs := by
      cases t with
      | nil => simp at hsign
      | cons c cs => exact ⟨c, cs, rfl⟩
    rw [List.forall_mem_cons]
    refine ⟨?_, hunsigned⟩
    simp only [List.head?_cons, Option.some.injEq] at hsign
    rcases hsign with hsign | hsign
    · rw [hsign]; decide
    · rw [hsign]; decide
  · exact hunsigned

/-- Values that are written as they are, whatever stands in them: what starts with a star, what is in quotes for
some other reason than that it is one literal, and expressions. -/
def isTakenAsWritten (type t : Text) : Bool :=
  t.head? == some '*' || isEnclosed '"' t || (objectTypes.contains type && isEnclosed '\'' t) || isExpression t

theorem SelfContained.of_ordinary (h : ∀ c ∈ t, isOrdinary c = true) : SelfContained t :=
  .of_unbroken (.of_ordinary h)

theorem selfContained_of_standsBare (h : standsBare allowed type t = true) (ht : Text.trim t = t)
    (ha : ∀ v ∈ allowed, ∀ c ∈ v, isInert c = true) (hw : isTakenAsWritten type t = false) : SelfContained t := by
  simp only [isTakenAsWritten, Bool.or_eq_false_iff, Bool.and_eq_false_iff] at hw
  obtain ⟨⟨⟨hstar, hdouble⟩, hsingle⟩, -⟩ := hw
  simp only [standsBare, hstar, hdouble, Bool.or_eq_true, Bool.and_eq_true, Bool.false_eq_true, or_false] at h
  rcases h with (((((h | h) | h) | h) | h) | h) | h
  · exact .of_ordinary (isOrdinary_of_isVariable h)
  · exact selfContained_of_isHexadecimal h
  · obtain ⟨v, hv, hupper⟩ := List.any_eq_true.mp h
    exact .of_inert (isInert_of_upper_eq (ha v hv) (by simpa using hupper))
  · exact .of_unbroken (.of_literal h)
  · exact .of_ordinary (isOrdinary_of_isQualified h)
  · exact .of_ordinary (isOrdinary_of_isSimpleName h)
  · rw [h.1] at hsingle
    exact .of_ordinary (isOrdinary_of_isNameValue h.2 ht hdouble (hsingle.resolve_left (by simp)))

/-- What is written for a value keeps the parentheses around it a pair, other than the values that are written as
they are: those do if the value does. -/
theorem closingParen?_literal (hd : typeName declared ∉ verbatimTypes)
    (ha : ∀ v ∈ allowed, ∀ c ∈ v, c ≠ '\'' ∧ c ≠ '"' ∧ c ≠ '(' ∧ c ≠ ')')
    (hw : isTakenAsWritten (typeName declared) (Text.trim v) = true →
      closingParen? (inParens (Text.trim v)) = some ((Text.trim v).length + 1)) :
    closingParen? (inParens (literal v allowed declared)) = some ((literal v allowed declared).length + 1) := by
  have hbare : standsBare allowed (typeName declared) (Text.trim v) = true → Encloses (Text.trim v) := by
    intro h
    cases ht : isTakenAsWritten (typeName declared) (Text.trim v) with
    | true => exact hw ht
    | false =>
      apply SelfContained.encloses
      exact selfContained_of_standsBare h (trim_trim v) (fun u hu c hc => isInert_iff.mpr (ha u hu c hc)) ht
  have hquote : ∀ t, Encloses (quote t) := by
    intro t
    exact (SelfContained.of_unbroken (.of_literal (isQuoted_quote t))).encloses
  have hliteral : Encloses (literal v allowed declared) := by
    unfold literal
    simp only
    split
    · next h =>
      rw [Bool.or_eq_true, List.contains_iff_mem] at h
      exact hbare (h.resolve_left hd)
    · split
      · next h =>
        apply Encloses.of_trim
        apply hw
        rw [isTakenAsWritten, h, Bool.or_true]
      · split
        · exact SelfContained.nil.encloses
        · split
          · next h => exact (SelfContained.of_ordinary (isOrdinary_of_isNumber h)).encloses
          · split
            · exact hquote _
            · exact hquote _
  exact hliteral

theorem closingParen?_literal_quote : literal "it's (here".toList ["*HERE".toList] = "'it''s (here'".toList ∧
    closingParen? "('it''s (here')".toList = some 14 := by
  have htaken : isTakenAsWritten (typeName []) (Text.trim "it's (here".toList) = false := by
    with_unfolding_all decide
  have hliteral : literal "it's (here".toList ["*HERE".toList] = "'it''s (here'".toList := by
    with_unfolding_all decide
  have hclose := @closingParen?_literal "it's (here".toList ["*HERE".toList] [] (by decide) (by simp)
    fun h => absurd h (by rw [htaken]; decide)
  rw [hliteral] at hclose
  exact ⟨hliteral, hclose⟩

/-- What starts with a star is written as it is, also if a parenthesis in it closes the one in front of it. -/
theorem closingParen?_literal_star : ¬∀ (v : Text) (allowed : List Text) (declared : Text),
    typeName declared ∉ verbatimTypes → (∀ u ∈ allowed, ∀ c ∈ u, c ≠ '\'' ∧ c ≠ '"' ∧ c ≠ '(' ∧ c ≠ ')') →
      closingParen? (inParens (literal v allowed declared)) = some ((literal v allowed declared).length + 1) := by
  intro h
  have := h "*X)".toList [] [] (by decide) (by simp)
  exact absurd this (by decide)

end

end ControlLanguage
