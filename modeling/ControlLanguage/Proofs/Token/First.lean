import ControlLanguage.Proofs.Token.Depth

/-!
# The first token of a text

A text whose tokens begin in a known way begins with the text of these
tokens: a keyword, a run of blanks, a parenthesis, or what stands between
two parentheses that are a pair.
-/

namespace ControlLanguage

namespace Token

variable {t : Text} {first : Bool} {pos : Nat} {u o q : Token} {us inner later : List Token}

theorem le_position_of_mem (h : u ∈ readFrom first pos t) : (pos : Int) ≤ u.position := by
  obtain ⟨front, later, hsplit⟩ := List.append_of_mem h
  obtain ⟨place, -⟩ := exists_place hsplit
  rw [place.position_eq]
  omega

theorem exists_first_paren (h : readFrom first pos t = u :: us) (hk : u.kind = .parenOpen ∨ u.kind = .parenClose) :
    ∃ rest, t = (if u.kind = .parenOpen then '(' else ')') :: rest ∧ u.position = pos ∧
      us = readFrom false (pos + 1) rest := by
  obtain ⟨c, v, rest, rfl, hkind, -, hpos, hus⟩ := exists_first h
  have hscan := scanned_of_kindAt hkind
  rcases hk with hk | hk
  · rw [hk] at hscan ⊢
    obtain ⟨rfl, rfl⟩ := List.cons.inj hscan.parenOpen_eq
    exact ⟨rest, rfl, hpos, hus⟩
  · rw [hk] at hscan ⊢
    obtain ⟨rfl, rfl⟩ := List.cons.inj hscan.parenClose_eq
    exact ⟨rest, rfl, hpos, hus⟩

/-- A text between two parentheses that are a pair: its scan never leaves them. -/
structure InPair (pos : Nat) (x : Text) : Prop where
  depth : ∀ m ∈ marksBefore (some ')') ⟨.outside, 1⟩ pos x, 1 ≤ m.depth
  after : Nesting.after (some ')') ⟨.outside, 1⟩ x = ⟨.outside, 1⟩

theorem InPair.closingParen? {a x : Text} (h : InPair (a.length + 1) x) (r : Text) :
    closingParen? (a ++ '(' :: (x ++ ')' :: r)) a.length = some (a.length + 1 + x.length) := by
  have hnone : (marksBefore (some ')') ⟨.outside, 1⟩ (a.length + 1) x).find? Mark.closesFirst = none := by
    rw [List.find?_eq_none]
    intro m hm
    have := h.depth m hm
    simp only [Mark.closesFirst, Bool.and_eq_true, beq_iff_eq, not_and]
    omega
  rw [closingParen?_append, marksFrom_append, List.head?_cons, h.after, List.find?_append, hnone, Option.none_or]
  rfl

theorem exists_span_text (h : readFrom first pos t = inner ++ q :: later) (hb : Balanced inner)
    (hq : q.kind = .parenClose) : ∃ x rest, t = x ++ ')' :: rest ∧ q.position = (pos + x.length : Nat) ∧
      later = readFrom false (pos + x.length + 1) rest ∧ InPair pos x := by
  obtain ⟨x, rest, rfl, hlater, hout, hiff⟩ := exists_cut h
  obtain ⟨rest, rfl, hpos, rfl⟩ := exists_first_paren hlater.symm (.inr hq)
  rw [hq] at hout hiff ⊢
  obtain ⟨hdepth, hafter⟩ := (hiff 0 0 1).mp hb
  exact ⟨x, rest, rfl, hpos, rfl, hdepth, congrArg₂ Nesting.mk (hout (List.cons_ne_nil _ _) 1) hafter⟩

theorem exists_keyword_text (h : readFrom false pos t = u :: us) (hk : u.kind = .keyword) :
    ∃ rest, t = u.text ++ rest ∧ Word.isName u.text = true ∧ us = readFrom false (pos + u.text.length) rest := by
  obtain ⟨c, v, rest, rfl, hkind, htext, -, hus⟩ := exists_first h
  rw [if_neg (by simp [hk])] at htext
  rw [← htext] at hus ⊢
  have hstands : u.Stands rest := ⟨c, v, htext, hkind, fun hs => by rw [hk] at hs; cases hs⟩
  exact ⟨rest, rfl, hstands.isName hk, hus⟩

theorem exists_argument_text (h : readFrom false pos t = u :: o :: (inner ++ q :: later)) (hu : u.kind = .keyword)
    (ho : o.kind = .parenOpen) (hb : Balanced inner) (hq : q.kind = .parenClose) : ∃ x rest,
    t = u.text ++ '(' :: (x ++ ')' :: rest) ∧ Word.isName u.text = true ∧
      o.position = (pos + u.text.length : Nat) ∧ q.position = (pos + u.text.length + 1 + x.length : Nat) ∧
      later = readFrom false (pos + u.text.length + 1 + x.length + 1) rest ∧
      InPair (pos + u.text.length + 1) x := by
  obtain ⟨rest, rfl, hname, hword⟩ := exists_keyword_text h hu
  obtain ⟨rest, hopen, hstart, hparen⟩ := exists_first_paren hword.symm (.inl ho)
  obtain ⟨x, rest, rfl, hstop, hlater, hx⟩ := exists_span_text hparen.symm hb hq
  rw [if_pos ho] at hopen
  rw [hopen]
  exact ⟨x, rest, rfl, hname, hstart, hstop, hlater, hx⟩

theorem exists_space_text (h : readFrom false pos t = u :: us) (hs : u.isSpace = true) : ∃ w rest,
    t = w ++ rest ∧ w ≠ [] ∧ (∀ c ∈ w, isBlank c = true) ∧ us = readFrom false (pos + w.length) rest := by
  obtain ⟨c, v, rest, rfl, hkind, -, -, hus⟩ := exists_first h
  have hscan := scanned_of_kindAt hkind
  rw [isSpace_iff.mp hs] at hscan
  exact ⟨c :: v, rest, rfl, List.cons_ne_nil _ _, hscan.isBlank, hus⟩

end Token

end ControlLanguage
