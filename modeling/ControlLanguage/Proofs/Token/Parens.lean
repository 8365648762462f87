import ControlLanguage.Command.Span
import ControlLanguage.Proofs.Token.Scan

/-!
# Parentheses among the tokens

The tokens of a text and its scan see the same parentheses, so counting
parentheses among the tokens finds the place that scanning the text finds:
`parens_ofText`.
-/

namespace ControlLanguage

/-! ## Spans -/

namespace Span

variable {t : Token}

theorem of?_open (h : t.kind = .parenOpen) (d : Nat) (ts : List Token) :
    of? d (t :: ts) = (of? (d + 1) ts).map (prepend t) := by
  simp only [of?, h]

theorem of?_close (h : t.kind = .parenClose) (d : Nat) (ts : List Token) :
    of? (d + 1) (t :: ts) = (of? d ts).map (prepend t) := by
  simp only [of?, h]

theorem of?_other (ho : t.kind ≠ .parenOpen) (hc : t.kind ≠ .parenClose) (d : Nat) (ts : List Token) :
    of? d (t :: ts) = (of? d ts).map (prepend t) := by
  simp only [of?]
  split
  · exact absurd ‹_› hc
  · exact absurd ‹_› hc
  · exact absurd ‹_› ho
  · rfl

theorem takeRun_unclosed {keyword : Option Text} {stops : Bool → Token → Bool} {after : Bool} {ts : List Token}
    (hs : stops after t = false) (hk : t.kind = .parenOpen) (h : of? 0 ts = none) :
    takeRun keyword stops after (t :: ts) = .error (.atToken .unclosedParen t keyword) := by
  rw [takeRun, if_neg (by simp [hs])]
  simp only [hk]
  split
  · rfl
  · next hsome => rw [h] at hsome; cases hsome

/-- The offset of the parenthesis that ends a span. -/
def stop (s : Span) : Int := s.close.position

theorem map_stop_prepend (t : Token) (s : Option Span) : (s.map (prepend t)).map stop = s.map stop := by
  rw [Option.map_map]; rfl

end Span

/-! ## The parentheses of a text -/

/-- The role and the offset of a parenthesis. -/
def Mark.paren? (m : Mark) : Option (Role × Int) :=
  match m.role with
  | .parenOpen | .parenClose => some (m.role, m.index)
  | _ => none

def Token.paren? (t : Token) : Option (Role × Int) :=
  match t.kind with
  | .parenOpen => some (.parenOpen, t.position)
  | .parenClose => some (.parenClose, t.position)
  | _ => none

theorem filterMap_paren?_eq_nil {ms : List Mark} (h : ∀ m ∈ ms, m.role ≠ .parenOpen ∧ m.role ≠ .parenClose) :
    ms.filterMap Mark.paren? = [] := by
  rw [List.filterMap_eq_nil_iff]
  intro m hm
  obtain ⟨ho, hc⟩ := h m hm
  unfold Mark.paren?
  split
  · exact absurd ‹_› ho
  · exact absurd ‹_› hc
  · rfl

theorem find?_closesFirst_eq_none {ms : List Mark} (h : ∀ m ∈ ms, m.role ≠ .parenOpen ∧ m.role ≠ .parenClose) :
    ms.find? Mark.closesFirst = none := by
  rw [List.find?_eq_none]
  intro m hm
  simp [Mark.closesFirst, (h m hm).2]

namespace Token

theorem paren?_eq_none {t : Token} (ho : t.kind ≠ .parenOpen) (hc : t.kind ≠ .parenClose) : t.paren? = none := by
  unfold paren?
  split
  · exact absurd ‹_› ho
  · exact absurd ‹_› hc
  · rfl

theorem parens_readFrom (first : Bool) (pos : Nat) (t : Text) (d : Int) :
    (readFrom first pos t).filterMap paren? = (marksFrom ⟨.outside, d⟩ pos t).filterMap Mark.paren? := by
  induction first, pos, t using readFrom_induction generalizing d with
  | nil first pos => rw [readFrom_nil]; rfl
  | token first pos c v rest k hk ih =>
    have hscan := scanned_of_kindAt hk
    rw [readFrom_token hk]
    by_cases ho : k = .parenOpen
    · subst ho
      rw [hscan.parenOpen_eq] at ih ⊢
      exact congrArg (_ :: ·) (ih (d + 1))
    · by_cases hc : k = .parenClose
      · subst hc
        rw [hscan.parenClose_eq] at ih ⊢
        exact congrArg (_ :: ·) (ih (d - 1))
      · obtain ⟨ms, hms, happ⟩ := hscan.marksFrom_append ⟨ho, hc⟩ d pos
        rw [happ, List.filterMap_append, filterMap_paren?_eq_nil hms, List.nil_append, ← ih d,
          List.filterMap_cons_none (paren?_eq_none ho hc)]

/-- Counting parentheses among the tokens ends where the scan finds the parenthesis that closes the first one, with
`d` others open in between. -/
theorem stop_readFrom (first : Bool) (pos : Nat) (t : Text) (d : Nat) :
    (Span.of? d (readFrom first pos t)).map Span.stop =
      ((marksFrom ⟨.outside, d + 1⟩ pos t).find? Mark.closesFirst).map fun m => (m.index : Int) := by
  induction first, pos, t using readFrom_induction generalizing d with
  | nil first pos => rw [readFrom_nil]; rfl
  | token first pos c v rest k hk ih =>
    have hscan := scanned_of_kindAt hk
    rw [readFrom_token hk]
    by_cases ho : k = .parenOpen
    · subst ho
      rw [hscan.parenOpen_eq] at ih ⊢
      rw [Span.of?_open rfl, Span.map_stop_prepend, ih (d + 1)]
      rfl
    · by_cases hc : k = .parenClose
      · subst hc
        rw [hscan.parenClose_eq] at ih ⊢
        rw [List.singleton_append, marksFrom_cons, Nesting.depthAt,
          show Nesting.step ⟨.outside, (d : Int) + 1⟩ ')' _ = (.parenClose, ⟨.outside, d + 1 - 1⟩) from rfl]
        cases d with
        | zero => rfl
        | succ d =>
          rw [Span.of?_close rfl, Span.map_stop_prepend, ih d, List.find?_cons_of_neg]
          · simp
          · simp [Mark.closesFirst]; omega
      · obtain ⟨ms, hms, happ⟩ := hscan.marksFrom_append ⟨ho, hc⟩ (d + 1) pos
        rw [happ, List.find?_append, find?_closesFirst_eq_none hms, Option.none_or, ← ih d, Span.of?_other ho hc,
          Span.map_stop_prepend]

theorem exists_marks_eq_append (text : Text) : ∃ ms, (∀ m ∈ ms, m.role ≠ .parenOpen ∧ m.role ≠ .parenClose) ∧
    marks text = ms ++ marksFrom .start (text.takeWhile isBlank).length (text.dropWhile isBlank) := by
  have hblanks : Scanned (text.dropWhile isBlank) .space (text.takeWhile isBlank) :=
    .space fun c hc => List.mem_takeWhile_imp hc
  obtain ⟨ms, hms, happ⟩ := hblanks.marksFrom_append (by decide) 0 0
  rw [List.takeWhile_append_dropWhile, Nat.zero_add] at happ
  exact ⟨ms, hms, happ⟩

theorem closingParen?_append (a rest : Text) : closingParen? (a ++ '(' :: rest) a.length =
    ((marksFrom ⟨.outside, 1⟩ (a.length + 1) rest).find? Mark.closesFirst).map (·.index) := by
  have hopen : (a ++ '(' :: rest)[a.length]? = some '(' := by simp
  rw [closingParen?, if_pos hopen, marks, List.drop_left]
  rfl

theorem parens_ofText (text : Text) :
    (ofText text).filterMap paren? = (marks text).filterMap Mark.paren? ∧
    ∀ i t, (ofText text)[i]? = some t → t.kind = .parenOpen →
      (Span.of? 0 ((ofText text).drop (i + 1))).map Span.stop =
        (closingParen? text t.position.toNat).map Int.ofNat ∧
      ∀ keyword stops after, stops after t = false → closingParen? text t.position.toNat = none →
        takeRun keyword stops after ((ofText text).drop i) = .error (.atToken .unclosedParen t keyword) := by
  constructor
  · obtain ⟨ms, hms, happ⟩ := exists_marks_eq_append text
    rw [happ, List.filterMap_append, filterMap_paren?_eq_nil hms, List.nil_append, ofText]
    exact parens_readFrom true _ _ 0
  · intro i t ht hk
    obtain ⟨hi, hget⟩ := List.getElem?_eq_some_iff.mp ht
    have hsplit : ofText text = (ofText text).take i ++ t :: (ofText text).drop (i + 1) := by
      rw [← hget, ← List.drop_eq_getElem_cons hi, List.take_append_drop]
    obtain ⟨p, hlater⟩ := exists_place hsplit
    have hscan := scanned_of_kindAt p.kindAt_eq
    rw [hk] at hscan
    obtain ⟨hc, hv⟩ := List.cons.inj hscan.parenOpen_eq
    have htext : text = text.takeWhile isBlank ++ p.before ++ '(' :: p.rest := by
      conv_lhs => rw [← List.takeWhile_append_dropWhile (p := isBlank) (l := text), p.text_eq, hc, hv]
      simp
    have hpos : t.position.toNat = (text.takeWhile isBlank ++ p.before).length := by
      rw [p.position_eq, List.length_append]; rfl
    have hclose := closingParen?_append (text.takeWhile isBlank ++ p.before) p.rest
    rw [← htext, ← hpos] at hclose
    have hstop : (Span.of? 0 ((ofText text).drop (i + 1))).map Span.stop =
        (closingParen? text t.position.toNat).map Int.ofNat := by
      rw [hlater, hc, hv, stop_readFrom, hclose, hpos, List.length_append, Option.map_map]
      rfl
    refine ⟨hstop, fun keyword stops after hs hnone => ?_⟩
    rw [hnone] at hstop
    rw [List.drop_eq_getElem_cons hi, hget]
    exact Span.takeRun_unclosed hs hk (Option.map_eq_none_iff.mp hstop)

/-- Parentheses in a literal and in a word with a literal in it do not count, and one of the others stays open. -/
theorem parens_ofText_literal :
    (Span.of? 0 ((ofText "CMD A('(' (X')')".toList).drop 7)).map Span.stop = some 15 ∧
    takeRun none stopsAtGroup false ((ofText "CMD A('(' (X')')".toList).drop 3) =
      .error (.atToken .unclosedParen ⟨.parenOpen, ['('], 5⟩ none) := by
  obtain ⟨-, h⟩ := parens_ofText "CMD A('(' (X')')".toList
  obtain ⟨hinner, -⟩ := h 6 ⟨.parenOpen, ['('], 10⟩ (by with_unfolding_all rfl) rfl
  obtain ⟨-, houter⟩ := h 3 ⟨.parenOpen, ['('], 5⟩ (by with_unfolding_all rfl) rfl
  constructor
  · rw [hinner]; decide
  · exact houter none stopsAtGroup false rfl (by decide)

end Token

end ControlLanguage
