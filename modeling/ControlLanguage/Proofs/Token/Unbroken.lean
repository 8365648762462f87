import ControlLanguage.Literal
import ControlLanguage.Proofs.Token.Reading
import ControlLanguage.SyntaxError

/-!
# Unbroken texts

An unbroken text is made of ordinary characters and of whole literals in
single quotes, so nothing in it ends a word. Wherever it stands, it leaves
open what was open before it, and its tokens have no space and no
parenthesis among them.
-/

namespace ControlLanguage

/-! ## Depth -/

namespace Nesting

/-- The same place inside of `k` more parentheses. -/
def deeper (n : Nesting) (k : Int) : Nesting := { n with depth := n.depth + k }

variable {n : Nesting} {next : Option Char}

theorem step_deeper (k : Int) (c : Char) (next : Option Char) :
    (n.deeper k).step c next = ((n.step c next).1, (n.step c next).2.deeper k) := by
  unfold step deeper
  split <;> grind

theorem after_deeper (k : Int) (t : Text) : (n.deeper k).after next t = (n.after next t).deeper k := by
  induction t generalizing n with
  | nil => rfl
  | cons c cs ih => rw [after, after, step_deeper, ih]

theorem step_inside {c : Char} (hm : n.mode ≠ .outside) (hc : (n.step c next).1 ≠ .quoteClose) :
    (n.step c next).1.inLiteral = true ∧ (n.step c next).2.mode ≠ .outside ∧ (n.step c next).2.depth = n.depth := by
  unfold step at hc ⊢
  split at hc
  · exact ⟨rfl, by simp, rfl⟩
  · split at hc
    · split at hc
      · next h1 h2 => rw [if_pos h1, if_pos h2]; exact ⟨rfl, by simp, rfl⟩
      · exact absurd rfl hc
    · next h => rw [if_neg h]; exact ⟨rfl, hm, rfl⟩
  · split at hc
    · exact absurd rfl hc
    · next h => rw [if_neg h]; exact ⟨rfl, hm, rfl⟩
  · exact absurd ‹_› hm

theorem inLiteral_of_inside {c : Char} (hm : n.mode ≠ .outside) : (n.step c next).1.inLiteral = true := by
  by_cases hc : (n.step c next).1 = .quoteClose
  · rw [hc]; rfl
  · exact (step_inside hm hc).1

theorem step_quoteClose {c : Char} (h : (n.step c next).1 = .quoteClose) :
    (n.step c next).2 = ⟨.outside, n.depth⟩ := by
  unfold step at h ⊢
  split at h <;> grind

end Nesting

def Mark.part (m : Mark) : Role × Char := (m.role, m.char)

/-- What the characters of a text are does not depend on where the text stands. -/
theorem map_part_marksBefore_deeper (next : Option Char) (n : Nesting) (k : Int) (i j : Nat) (t : Text) :
    (marksBefore next (n.deeper k) i t).map Mark.part = (marksBefore next n j t).map Mark.part := by
  induction t generalizing n i j with
  | nil => rfl
  | cons c cs ih =>
    rw [marksBefore, marksBefore, List.map_cons, List.map_cons, Nesting.step_deeper]
    exact congrArg _ (ih _ _ _)

/-! ## Literals -/

theorem marksBefore_inside {n : Nesting} {next : Option Char} {i : Nat} {t : Text} (hm : n.mode ≠ .outside)
    (hc : ∀ m ∈ marksBefore next n i t, m.role ≠ .quoteClose) :
    (∀ m ∈ marksBefore next n i t, m.role.inLiteral = true) ∧ (n.after next t).mode ≠ .outside ∧
      (n.after next t).depth = n.depth := by
  induction t generalizing n i with
  | nil => exact ⟨by simp [marksBefore], hm, rfl⟩
  | cons c cs ih =>
    rw [marksBefore, List.forall_mem_cons] at hc
    obtain ⟨hlit, hmode, hdepth⟩ := Nesting.step_inside hm hc.1
    obtain ⟨hall, hend, hd⟩ := ih hmode hc.2
    rw [marksBefore, List.forall_mem_cons, Nesting.after]
    exact ⟨⟨hlit, hall⟩, hend, hd.trans hdepth⟩

theorem isQuoted_split {l : Text} (h : isQuoted l = true) : ∃ v, l = v ++ ['\''] ∧ v.head? = some '\'' ∧
    (∀ m ∈ marksBefore (some '\'') .start 0 v, m.role ≠ .quoteClose) ∧
      ((Nesting.start.after (some '\'') v).step '\'' none).1 = .quoteClose := by
  rw [isQuoted, Bool.and_eq_true, beq_iff_eq, isEnclosed] at h
  simp only [Bool.and_eq_true, decide_eq_true_eq, beq_iff_eq] at h
  obtain ⟨⟨⟨hlen, hhead⟩, hlast⟩, hend⟩ := h
  obtain ⟨v, rfl⟩ := List.getLast?_eq_some_iff.mp hlast
  rw [endOfLiteral, marks_eq, marksFrom_append, List.find?_append, marksFrom_cons, List.head?_cons] at hend
  have hnone : (marksBefore (some '\'') .start 0 v).find? (·.role == .quoteClose) = none := by
    rw [Option.eq_none_iff_forall_ne_some]
    intro m hm
    -- an earlier quote would end the literal
    have hlt := index_of_mem_marksBefore (List.mem_of_find?_eq_some hm)
    rw [hm, Option.some_or] at hend
    have := congrArg Prod.fst hend
    simp only [List.length_append, List.length_singleton] at this
    omega
  refine ⟨v, rfl, ?_, fun m hm => by simpa using List.find?_eq_none.mp hnone m hm, ?_⟩
  · cases v with
    | nil => simp at hlen
    | cons => exact hhead
  · refine Classical.byContradiction fun hne => ?_
    rw [hnone, Option.none_or, List.find?_cons_of_neg (by simpa using hne)] at hend
    have := congrArg Prod.snd hend
    simp [marksFrom] at this

theorem start_deeper (d : Int) : Nesting.start.deeper d = ⟨.outside, d⟩ := by
  simp [Nesting.deeper, Nesting.start]

/-- Whether a literal is open behind a text does not depend on the parentheses around the text. -/
theorem Nesting.mode_after (next : Option Char) (d : Int) (t : Text) :
    (Nesting.after next ⟨.outside, d⟩ t).mode = (start.after next t).mode := by
  rw [← start_deeper, after_deeper]; rfl

theorem Nesting.mode_after_append {n : Nesting} {next : Option Char} {s t : Text}
    (h : (n.after (t.head?.or next) s).mode = .outside) :
    (n.after next (s ++ t)).mode = (start.after next t).mode := by
  rw [after_append]
  generalize n.after (t.head?.or next) s = m at h
  obtain ⟨mode, d⟩ := m
  obtain rfl : mode = .outside := h
  exact mode_after ..

theorem scan_literal {l : Text} (h : isQuoted l = true) {next : Option Char} (hq : next ≠ some '\'') (d : Int)
    (i : Nat) : (∀ m ∈ marksBefore next ⟨.outside, d⟩ i l, m.role.inLiteral = true) ∧
      Nesting.after next ⟨.outside, d⟩ l = ⟨.outside, d⟩ := by
  obtain ⟨v, rfl, hhead, hv, hx⟩ := isQuoted_split h
  obtain ⟨v, rfl⟩ := List.head?_eq_some_iff.mp hhead
  have hclose := Nesting.step_close hx hq
  rw [marksBefore, List.forall_mem_cons] at hv
  obtain ⟨hall, -, hdepth⟩ := marksBefore_inside (n := ⟨.single false, 0⟩) (by simp) hv.2
  rw [← start_deeper]
  refine ⟨fun m hm => ?_, ?_⟩
  · have hpart := List.mem_map_of_mem (f := Mark.part) hm
    rw [map_part_marksBefore_deeper next .start d i 0, marksBefore_snoc, List.map_append, List.mem_append] at hpart
    rcases hpart with hpart | hpart
    · obtain ⟨m', hm', he⟩ := List.mem_map.mp hpart
      rw [← show m'.role = m.role from congrArg Prod.fst he]
      rw [marksBefore] at hm'
      rcases List.mem_cons.mp hm' with rfl | hm'
      · rfl
      · exact hall m' hm'
    · rw [marksBefore, marksBefore, List.map_singleton, List.mem_singleton] at hpart
      rw [show m.role = _ from congrArg Prod.fst hpart]
      simp only [Mark.part, List.head?_nil, Option.none_or, hclose]; rfl
  · rw [Nesting.after_deeper, Nesting.after_snoc, Nesting.step_quoteClose hclose]
    exact congrArg (fun k => (⟨.outside, k⟩ : Nesting).deeper d) hdepth

theorem endOfLiteral_literal {l rest : Text} (h : isQuoted l = true) (hq : rest.head? ≠ some '\'') :
    endOfLiteral (l ++ rest) = (l.length, true) := by
  obtain ⟨v, rfl, -, hv, hx⟩ := isQuoted_split h
  rw [List.append_assoc, List.singleton_append, endOfLiteral_of_close hv (Nesting.step_close hx hq)]
  simp

theorem head?_literal {l : Text} (h : isQuoted l = true) : l.head? = some '\'' := by
  obtain ⟨v, rfl, hhead, -⟩ := isQuoted_split h
  rw [List.head?_append, hhead]; rfl

/-! ## Unbroken texts -/

inductive Unbroken : Text → Prop
  | nil : Unbroken []
  | char {c w} : isOrdinary c = true → Unbroken w → Unbroken (c :: w)
  | literal {l w} : isQuoted l = true → w.head? ≠ some '\'' → Unbroken w → Unbroken (l ++ w)

namespace Unbroken

variable {w a b : Text}

theorem of_ordinary (h : ∀ c ∈ w, isOrdinary c = true) : Unbroken w := by
  induction w with
  | nil => exact .nil
  | cons c w ih =>
    obtain ⟨hc, hw⟩ := List.forall_mem_cons.mp h
    exact .char hc (ih hw)

theorem of_literal (h : isQuoted w = true) : Unbroken w := by
  have := Unbroken.literal h (by simp) .nil
  rwa [List.append_nil] at this

theorem append (ha : Unbroken a) (hb : Unbroken b) (hq : b.head? ≠ some '\'') : Unbroken (a ++ b) := by
  induction ha with
  | nil => exact hb
  | char hc _ ih => exact .char hc ih
  | literal hl hw _ ih =>
    rw [List.append_assoc]
    refine .literal hl ?_ ih
    rw [List.head?_append]
    intro h
    rcases Option.or_eq_some_iff.mp h with h | ⟨-, h⟩
    · exact hw h
    · exact hq h

theorem scan (h : Unbroken w) {next : Option Char} (hq : next ≠ some '\'') (d : Int) (i : Nat) :
    (∀ m ∈ marksBefore next ⟨.outside, d⟩ i w, m.inWord = true) ∧
      Nesting.after next ⟨.outside, d⟩ w = ⟨.outside, d⟩ := by
  induction h generalizing i with
  | nil => exact ⟨by simp [marksBefore], rfl⟩
  | @char c w hc _ ih =>
    obtain ⟨hall, hend⟩ := marksBefore_ordinary (w := [c]) (by simpa using hc) (w.head?.or next) ⟨.outside, d⟩ rfl i
    rw [← List.singleton_append, marksBefore_append, Nesting.after_append, hend]
    refine ⟨List.forall_mem_append.mpr ⟨List.all_eq_true.mp hall, (ih _).1⟩, (ih i).2⟩
  | @literal l w hl hw _ ih =>
    have hnext : w.head?.or next ≠ some '\'' := by
      intro h
      rcases Option.or_eq_some_iff.mp h with h | ⟨-, h⟩
      · exact hw h
      · exact hq h
    obtain ⟨hall, hend⟩ := scan_literal hl hnext d i
    rw [marksBefore_append, Nesting.after_append, hend]
    refine ⟨List.forall_mem_append.mpr ⟨fun m hm => ?_, (ih _).1⟩, (ih i).2⟩
    rw [Mark.inWord, hall m hm]; rfl

theorem dropWhile {p : Char → Bool} (hp : ∀ c, p c = true → isOrdinary c = true) (h : Unbroken w) :
    Unbroken (w.dropWhile p) := by
  induction h with
  | nil => exact .nil
  | @char c w hc hw ih =>
    by_cases h : p c = true
    · rw [List.dropWhile_cons_of_pos h]; exact ih
    · rw [List.dropWhile_cons_of_neg h]; exact .char hc hw
  | @literal l w hl hq hw _ =>
    obtain ⟨v, rfl⟩ := List.head?_eq_some_iff.mp (head?_literal hl)
    have hquote : ¬p '\'' = true := fun h => absurd (hp _ h) (by decide)
    rw [List.cons_append, List.dropWhile_cons_of_neg hquote]
    exact .literal hl hq hw

theorem cons_cases {c : Char} (h : Unbroken (c :: w)) : isOrdinary c = true ∧ Unbroken w ∨
    ∃ l v, c :: w = l ++ v ∧ isQuoted l = true ∧ v.head? ≠ some '\'' ∧ Unbroken v := by
  generalize hw : c :: w = t at h
  cases h with
  | nil => cases hw
  | char hc h =>
    obtain ⟨rfl, rfl⟩ := List.cons.inj hw
    exact .inl ⟨hc, h⟩
  | literal hl hq h => exact .inr ⟨_, _, rfl, hl, hq, h⟩

open Token

theorem wordLength_append (h : Unbroken w) {rest : Text} (hr : startsDelimited rest = true) :
    wordLength (w ++ rest) = w.length := by
  obtain ⟨hall, hend⟩ := h.scan (startsDelimited_quote hr) 0 0
  refine wordLength_append_iff.mpr ⟨List.all_eq_true.mpr hall, .inr ⟨?_, hr⟩⟩
  rw [Nesting.start, hend]

/-- The first token of an unbroken text in front of a parenthesis: how long it is and what it can be. -/
structure FirstToken (c : Char) (w : Text) (k : TokenKind) (n : Nat) : Prop where
  length_le : n ≤ w.length
  rest : Unbroken (w.drop n)
  kind : k ≠ .space ∧ k ≠ .parenOpen ∧ k ≠ .parenClose
  closed : k = .string → isQuoted (c :: w.take n) = true

theorem firstToken_run {c : Char} {p : Char → Bool} {k : TokenKind} (hp : ∀ c, p c = true → isOrdinary c = true)
    (h : Unbroken w) (hk : k ≠ .space ∧ k ≠ .parenOpen ∧ k ≠ .parenClose) (hs : k ≠ .string) :
    FirstToken c w k ((w ++ [')']).takeWhile p).length := by
  have hparen : ¬p ')' = true := fun h => absurd (hp _ h) (by decide)
  have hrun : ((w ++ [')']).takeWhile p).length = (w.takeWhile p).length := by
    rw [List.takeWhile_append]
    split
    · next he => rw [List.takeWhile_cons_of_neg hparen, List.append_nil, he]
    · rfl
  rw [hrun]
  refine ⟨length_takeWhile_le p w, ?_, hk, fun h => absurd h hs⟩
  rw [drop_length_takeWhile]
  exact h.dropWhile hp

theorem firstToken_word {c : Char} {k : TokenKind} (hc : isOrdinary c = true) (h : Unbroken w)
    (hk : k ≠ .space ∧ k ≠ .parenOpen ∧ k ≠ .parenClose) (hs : k ≠ .string) :
    FirstToken c w k (wordLength (c :: (w ++ [')'])) - 1) := by
  have hlen : wordLength (c :: w ++ [')']) = (c :: w).length := (Unbroken.char hc h).wordLength_append rfl
  rw [← List.cons_append, hlen]
  refine ⟨Nat.le_refl _, ?_, hk, fun h => absurd h hs⟩
  rw [List.length_cons, Nat.add_sub_cancel, List.drop_length]
  exact .nil

theorem firstToken {c : Char} (h : Unbroken (c :: w)) {k : TokenKind} {n : Nat}
    (hk : kindAt false c (w ++ [')']) = (k, n)) : FirstToken c w k n := by
  have hkind := kindOf hk
  rcases h.cons_cases with ⟨hc, hw⟩ | ⟨l, v, he, hl, hq, hv⟩
  · obtain ⟨hb, h1, h2, h3⟩ := isOrdinary_iff.mp hc
    cases hkind with
    | space h => rw [hb] at h; cases h
    | parenOpen h => exact absurd h h1
    | parenClose h => exact absurd h h2
    | string h => exact absurd h h3
    | variableRef => exact firstToken_run (fun _ => isOrdinary_of_continuesName) hw (by decide) (by decide)
    | wordOperator => exact firstToken_run (fun _ => isOrdinary_of_continuesName) hw (by decide) (by decide)
    | library => exact firstToken_word hc hw (by decide) (by decide)
    | symbolic => exact firstToken_run (fun _ => isOrdinary_of_continuesName) hw (by decide) (by decide)
    | function =>
      exact firstToken_run (fun _ h => isOrdinary_of_continuesName (continuesName_of_isAlpha h)) hw (by decide)
        (by decide)
    | pair hpair =>
      have hsecond : ∀ p ∈ pairOperators, isOrdinary p.2 = true := by decide
      cases w with
      | nil =>
        have hparen := pair_of_isDelimiter (c := c) (show isDelimiter ')' = true by decide)
        exact absurd (hparen.symm.trans hpair) (by decide)
      | cons d w =>
        have hd : isOrdinary d = true := hsecond (c, d) (List.contains_iff_mem.mp hpair)
        rcases hw.cons_cases with ⟨-, hw⟩ | ⟨l, v, he, hl, -⟩
        · exact ⟨by simp, hw, by decide, by simp⟩
        · obtain ⟨u, rfl⟩ := List.head?_eq_some_iff.mp (head?_literal hl)
          obtain ⟨rfl, -⟩ := List.cons.inj he
          exact absurd hd (by decide)
    | char => exact ⟨Nat.zero_le _, hw, by decide, by simp⟩
    | keyword => exact firstToken_word hc hw (by decide) (by decide)
    | value => exact firstToken_word hc hw (by decide) (by decide)
  · obtain ⟨u, rfl⟩ := List.head?_eq_some_iff.mp (head?_literal hl)
    rw [List.cons_append] at he
    obtain ⟨rfl, rfl⟩ := List.cons.inj he
    have hend : endOfLiteral ('\'' :: (u ++ v ++ [')'])) = (u.length + 1, true) := by
      have hnext : (v ++ [')']).head? ≠ some '\'' := by
        cases v with
        | nil => simp
        | cons => exact hq
      have := endOfLiteral_literal hl hnext
      rwa [List.cons_append, ← List.append_assoc] at this
    rw [kindAt_false, if_neg (by decide), if_neg (by decide), if_neg (by decide), if_pos (.inl rfl), hend] at hk
    obtain ⟨rfl, rfl⟩ := Prod.mk.inj hk
    rw [Nat.add_sub_cancel]
    refine ⟨by simp, by rwa [List.drop_left], by decide, fun _ => by rwa [List.take_left]⟩

/-! ## Tokens -/

/-- Tokens of an unbroken text: whole literals and others that neither divide a text nor enclose one. -/
structure Tokens (w : Text) (ts : List Token) : Prop where
  joined : joinTokens ts = w
  reads : Reads ts [')']
  isSpace : ∀ t ∈ ts, t.isSpace = false
  notParen : ∀ t ∈ ts, t.kind ≠ .parenOpen ∧ t.kind ≠ .parenClose
  closed : ∀ t ∈ ts, t.kind = .string → t.isClosedLiteral = true

theorem exists_tokens (h : Unbroken w) : ∃ ts, Tokens w ts := by
  induction hn : w.length using Nat.strongRecOn generalizing w with
  | _ n ih =>
    cases w with
    | nil => exact ⟨[], rfl, trivial, by simp, by simp, by simp⟩
    | cons c w =>
      subst hn
      rcases hk : kindAt false c (w ++ [')']) with ⟨k, n⟩
      have hfirst := firstToken h hk
      obtain ⟨ts, hts⟩ := ih (w.drop n).length (by rw [List.length_drop, List.length_cons]; omega) hfirst.rest rfl
      have htake : (w.take n).length = n := by
        rw [List.length_take, Nat.min_eq_left hfirst.length_le]
      have hspace : (Token.mk k (c :: w.take n) 0).isSpace = false := beq_eq_false_iff_ne.mpr hfirst.kind.1
      refine ⟨⟨k, c :: w.take n, 0⟩ :: ts, ?_, ⟨⟨c, w.take n, rfl, ?_, fun h => absurd h hfirst.kind.1⟩, hts.reads⟩,
        List.forall_mem_cons.mpr ⟨hspace, hts.isSpace⟩, List.forall_mem_cons.mpr ⟨hfirst.kind.2, hts.notParen⟩,
        List.forall_mem_cons.mpr ⟨fun hs => ?_, hts.closed⟩⟩
      · rw [joinTokens_cons, hts.joined, List.cons_append, List.take_append_drop]
      · rw [hts.joined, ← List.append_assoc, List.take_append_drop, hk, htake]
      · have := hfirst.closed hs
        rw [isQuoted, Bool.and_eq_true] at this
        exact this.2

end Unbroken

end ControlLanguage
