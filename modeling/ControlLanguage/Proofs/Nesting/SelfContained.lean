import ControlLanguage.Proofs.Token.Unbroken

/-!
# Texts between parentheses

A self-contained text closes every literal and every parenthesis that it
opens, and no others. Parentheses around it are a pair, so it can stand as an
argument or as a group, and nothing behind it is read in another way.
-/

namespace ControlLanguage

def inParens (t : Text) : Text := '(' :: t ++ [')']

/-- Characters that neither open a literal nor are parentheses. -/
def isInert (c : Char) : Bool := c != '\'' && c != '"' && c != '(' && c != ')'

theorem isInert_iff {c : Char} : isInert c = true ↔ c ≠ '\'' ∧ c ≠ '"' ∧ c ≠ '(' ∧ c ≠ ')' := by
  simp [isInert, and_assoc]

theorem isInert_of_isOrdinary {c : Char} (h : isOrdinary c = true) : isInert c = true := by
  simp only [isOrdinary, isDelimiter, Bool.and_eq_true, Bool.not_eq_true', Bool.or_eq_false_iff] at h
  simp_all [isInert]

theorem isInert_of_isSpace {c : Char} (h : isSpace c = true) : isInert c = true := by
  rw [isInert_iff]
  refine ⟨?_, ?_, ?_, ?_⟩ <;>
  · intro hc; subst hc; exact absurd h (by decide)

theorem isInert_of_isBlank {c : Char} (h : isBlank c = true) : isInert c = true :=
  isInert_of_isSpace (isSpace_of_isBlank h)

inductive SelfContained : Text → Prop
  | nil : SelfContained []
  | char {c t} : isInert c = true → SelfContained t → SelfContained (c :: t)
  | literal {l t} : isQuoted l = true → t.head? ≠ some '\'' → SelfContained t → SelfContained (l ++ t)
  | group {u t} : SelfContained u → SelfContained t → SelfContained (inParens u ++ t)

theorem Nesting.step_inert {c : Char} (hc : isInert c = true) (d : Int) (next : Option Char) :
    Nesting.step ⟨.outside, d⟩ c next = (.plain, ⟨.outside, d⟩) := by
  obtain ⟨h1, h2, h3, h4⟩ := isInert_iff.mp hc
  simp [step, h1, h2, h3, h4]

section
variable {n : Nesting} {next : Option Char} {a b t u w rest : Text} {ws : List Text}

/-! ## Marks -/

theorem depth_marksBefore {i : Nat} (h : ∀ m ∈ marksBefore next n i t, m.role.inLiteral = true) :
    ∀ m ∈ marksBefore next n i t, m.depth = n.depth := by
  have hstep : ∀ (n : Nesting) (c : Char) (next : Option Char), (n.step c next).1.inLiteral = true →
      n.depthAt c next = n.depth ∧ (n.step c next).2.depth = n.depth := by
    intro n c next hl
    unfold Nesting.depthAt
    unfold Nesting.step at hl ⊢
    split at hl <;> grind [Role.inLiteral]
  induction t generalizing n i with
  | nil => simp [marksBefore]
  | cons c cs ih =>
    rw [marksBefore, List.forall_mem_cons] at h ⊢
    obtain ⟨hd, hn⟩ := hstep n c (cs.head?.or next) h.1
    refine ⟨hd, fun m hm => ?_⟩
    rw [ih h.2 m hm, hn]

theorem marksBefore_inParens (hc : Nesting.after (some ')') ⟨.outside, n.depth + 1⟩ u = ⟨.outside, n.depth + 1⟩)
    (hm : n.mode = .outside) (i : Nat) :
    marksBefore next n i (inParens u) = ⟨i, '(', .parenOpen, n.depth⟩ ::
      (marksBefore (some ')') ⟨.outside, n.depth + 1⟩ (i + 1) u ++
        [⟨i + 1 + u.length, ')', .parenClose, n.depth⟩]) := by
  obtain ⟨mode, d⟩ := n
  subst hm
  rw [inParens, List.cons_append, marksBefore]
  refine congrArg₂ List.cons rfl ?_
  rw [show (Nesting.step ⟨.outside, d⟩ '(' _).2 = ⟨.outside, d + 1⟩ from rfl, marksBefore_append]
  simp only [List.head?_cons, Option.some_or] at hc ⊢
  rw [hc]
  simp [marksBefore, Nesting.step, Nesting.depthAt]

theorem SelfContained.scan (h : SelfContained t) (hq : next ≠ some '\'') (d : Int) (i : Nat) :
    (∀ m ∈ marksBefore next ⟨.outside, d⟩ i t, d ≤ m.depth) ∧
      Nesting.after next ⟨.outside, d⟩ t = ⟨.outside, d⟩ := by
  induction h generalizing next d i with
  | nil => simp [marksBefore, Nesting.after]
  | char hc _ ih =>
    rw [marksBefore, Nesting.after, Nesting.depthAt, Nesting.step_inert hc]
    simpa using ih hq d (i + 1)
  | @literal l t hl ht _ ih =>
    have hnext : t.head?.or next ≠ some '\'' := by
      cases t with
      | nil => exact hq
      | cons => exact ht
    obtain ⟨hin, hend⟩ := scan_literal hl hnext d i
    rw [marksBefore_append, Nesting.after_append, hend]
    obtain ⟨hall, hafter⟩ := ih hq d (i + l.length)
    refine ⟨fun m hm => ?_, hafter⟩
    rcases List.mem_append.mp hm with hm | hm
    · exact Int.le_of_eq (depth_marksBefore hin m hm).symm
    · exact hall m hm
  | @group u t _ _ ihu iht =>
    obtain ⟨hu, hend⟩ := ihu (show some ')' ≠ some '\'' by simp) (d + 1) (i + 1)
    obtain ⟨ht, hafter⟩ := iht hq d (i + (inParens u).length)
    have hclose : Nesting.after (t.head?.or next) ⟨.outside, d⟩ (inParens u) = ⟨.outside, d⟩ := by
      rw [inParens, List.cons_append, Nesting.after, Nesting.after_snoc,
        show (Nesting.step ⟨.outside, d⟩ '(' _).2 = ⟨.outside, d + 1⟩ from rfl, hend]
      simp [Nesting.step]
    rw [marksBefore_append, Nesting.after_append, hclose, marksBefore_inParens hend rfl]
    refine ⟨fun m hm => ?_, hafter⟩
    simp only [List.mem_append, List.mem_cons, List.not_mem_nil, or_false] at hm
    rcases hm with (hm | hm | hm) | hm
    · simp [hm]
    · have := hu m hm; omega
    · simp [hm]
    · exact ht m hm

/-! ## Building self-contained texts -/

namespace SelfContained

theorem of_inert (h : ∀ c ∈ t, isInert c = true) : SelfContained t := by
  induction t with
  | nil => exact .nil
  | cons c cs ih =>
    obtain ⟨hc, hcs⟩ := List.forall_mem_cons.mp h
    exact .char hc (ih hcs)

theorem of_unbroken (h : Unbroken w) : SelfContained w := by
  induction h with
  | nil => exact .nil
  | char hc _ ih => exact .char (isInert_of_isOrdinary hc) ih
  | literal hl hq _ ih => exact .literal hl hq ih

theorem append (ha : SelfContained a) (hb : SelfContained b) (hq : b.head? ≠ some '\'') :
    SelfContained (a ++ b) := by
  induction ha with
  | nil => exact hb
  | char hc _ ih => exact .char hc ih
  | @literal l t hl ht _ ih =>
    rw [List.append_assoc]
    apply literal hl _ ih
    cases t with
    | nil => exact hq
    | cons => exact ht
  | group hu _ _ ih =>
    rw [List.append_assoc]
    exact .group hu ih

theorem inParens (h : SelfContained t) : SelfContained (inParens t) := by
  have := group h .nil
  rwa [List.append_nil] at this

theorem unwords (h : ∀ w ∈ ws, SelfContained w) : SelfContained (Text.unwords ws) := by
  rw [Text.unwords]
  induction ws with
  | nil => exact .nil
  | cons w ws ih =>
    obtain ⟨hw, hws⟩ := List.forall_mem_cons.mp h
    cases ws with
    | nil => rwa [List.intercalate_singleton]
    | cons v vs =>
      rw [List.intercalate_cons_cons, List.append_assoc, List.singleton_append]
      exact hw.append (.char (by decide) (ih hws)) (by simp)

end SelfContained

/-! ## The closing parenthesis -/

/-- Whether a mark is the parenthesis that closes the one at the start. -/
def Mark.closesFirst (m : Mark) : Bool := m.role == .parenClose && m.depth == 0

theorem marks_inParens_append (t rest : Text) : marks (inParens t ++ rest) = ⟨0, '(', .parenOpen, 0⟩ ::
    (marksBefore (some ')') ⟨.outside, 1⟩ 1 t ++
      marksFrom (Nesting.after (some ')') ⟨.outside, 1⟩ t) (1 + t.length) (')' :: rest)) := by
  have happ := marksFrom_append ⟨.outside, 1⟩ 1 t (')' :: rest)
  rw [List.head?_cons] at happ
  rw [marks_eq, inParens, List.cons_append, List.cons_append, List.append_assoc, marksFrom_cons,
    List.singleton_append]
  exact congrArg _ happ

theorem Nesting.closesFirst_iff (n : Nesting) (i : Nat) (next : Option Char) :
    Mark.closesFirst ⟨i, ')', (n.step ')' next).1, n.depthAt ')' next⟩ = true ↔ n = ⟨.outside, 1⟩ := by
  obtain ⟨mode, d⟩ := n
  cases mode with
  | outside =>
    simp only [Mark.closesFirst, depthAt, step]
    simp
    omega
  | single escaped => cases escaped <;> simp [Mark.closesFirst, step]
  | double => simp [Mark.closesFirst, step]

/-- A text keeps the parentheses around it a pair if no parenthesis in it closes the first one and nothing is
open behind it. -/
theorem closingParen?_inParens_iff : closingParen? (inParens t ++ rest) = some (t.length + 1) ↔
    (∀ m ∈ marksBefore (some ')') ⟨.outside, 1⟩ 1 t, m.closesFirst = false) ∧
      Nesting.after (some ')') ⟨.outside, 1⟩ t = ⟨.outside, 1⟩ := by
  have hfirst : (inParens t ++ rest)[0]? = some '(' := rfl
  have hdef : closingParen? (inParens t ++ rest) =
      ((marks (inParens t ++ rest)).find? Mark.closesFirst).map (·.index) := if_pos hfirst
  rw [hdef, marks_inParens_append, List.find?_cons_of_neg (by simp [Mark.closesFirst]), List.find?_append]
  cases hm : (marksBefore (some ')') ⟨.outside, 1⟩ 1 t).find? Mark.closesFirst with
  | some m =>
    have hlt := index_of_mem_marksBefore (List.mem_of_find?_eq_some hm)
    constructor
    · intro h
      rw [Option.some_or, Option.map_some, Option.some.injEq] at h
      omega
    · intro h
      have := List.find?_some hm
      rw [h.1 m (List.mem_of_find?_eq_some hm)] at this; cases this
  | none =>
    have hnone : ∀ m ∈ marksBefore (some ')') ⟨.outside, 1⟩ 1 t, m.closesFirst = false := by
      simpa using List.find?_eq_none.mp hm
    rw [Option.none_or, marksFrom_cons]
    by_cases hn : Nesting.after (some ')') ⟨.outside, 1⟩ t = ⟨.outside, 1⟩
    · rw [List.find?_cons_of_pos ((Nesting.closesFirst_iff ..).mpr hn)]
      apply iff_of_true _ ⟨hnone, hn⟩
      simp only [Option.map_some, Option.some.injEq]
      omega
    · rw [List.find?_cons_of_neg (mt (Nesting.closesFirst_iff ..).mp hn)]
      apply iff_of_false _ fun h => hn h.2
      intro h
      obtain ⟨m, hfind, hindex⟩ := Option.map_eq_some_iff.mp h
      have := index_of_mem_marksFrom (List.mem_of_find?_eq_some hfind)
      omega

theorem SelfContained.not_closesFirst (h : SelfContained t) (hq : next ≠ some '\'') (i : Nat) :
    ∀ m ∈ marksBefore next ⟨.outside, 1⟩ i t, m.closesFirst = false := by
  intro m hm
  have := (h.scan hq 1 i).1 m hm
  simp only [Mark.closesFirst, Bool.and_eq_false_iff, beq_eq_false_iff_ne]
  right; omega

theorem SelfContained.closingParen? (h : SelfContained t) (rest : Text) :
    closingParen? (ControlLanguage.inParens t ++ rest) = some (t.length + 1) := by
  apply closingParen?_inParens_iff.mpr
  exact ⟨h.not_closesFirst (by simp) 1, (h.scan (by simp) 1 1).2⟩

def Encloses (t : Text) : Prop := ControlLanguage.closingParen? (inParens t) = some (t.length + 1)

theorem encloses_iff : Encloses t ↔ (∀ m ∈ marksBefore (some ')') ⟨.outside, 1⟩ 1 t, m.closesFirst = false) ∧
    Nesting.after (some ')') ⟨.outside, 1⟩ t = ⟨.outside, 1⟩ := by
  have h := @closingParen?_inParens_iff t []
  rw [List.append_nil] at h
  exact h

theorem SelfContained.encloses (h : SelfContained t) : Encloses t := by
  have := h.closingParen? []
  rwa [List.append_nil] at this

theorem closesFirst_marksBefore (i j : Nat) (h : ∀ m ∈ marksBefore next n i t, m.closesFirst = false) :
    ∀ m ∈ marksBefore next n j t, m.closesFirst = false := by
  induction t generalizing n i j with
  | nil => simp [marksBefore]
  | cons c cs ih =>
    rw [marksBefore, List.forall_mem_cons] at h ⊢
    exact ⟨h.1, ih _ _ h.2⟩

theorem Encloses.inert_append (ha : ∀ c ∈ a, isInert c = true) (h : Encloses t) : Encloses (a ++ t) := by
  induction a with
  | nil => exact h
  | cons c a ih =>
    obtain ⟨hc, ha⟩ := List.forall_mem_cons.mp ha
    obtain ⟨hall, hend⟩ := encloses_iff.mp (ih ha)
    apply encloses_iff.mpr
    rw [List.cons_append, marksBefore, Nesting.after, Nesting.depthAt, Nesting.step_inert hc, List.forall_mem_cons]
    exact ⟨⟨by simp [Mark.closesFirst], closesFirst_marksBefore 1 2 hall⟩, hend⟩

theorem Encloses.append (h : Encloses a) (hb : SelfContained b) (hq : b.head? ≠ some '\'') : Encloses (a ++ b) := by
  obtain ⟨hall, hend⟩ := encloses_iff.mp h
  have hnext : b.head?.or (some ')') = some '\'' ↔ some ')' = some '\'' := by
    cases b with
    | nil => simp
    | cons => simpa using hq
  apply encloses_iff.mpr
  rw [marksBefore_append, marksBefore_congr hnext, Nesting.after_append, Nesting.after_congr hnext, hend]
  refine ⟨fun m hm => ?_, (hb.scan (by simp) 1 1).2⟩
  rcases List.mem_append.mp hm with hm | hm
  · exact hall m hm
  · exact hb.not_closesFirst (by simp) _ m hm

theorem Encloses.of_trim (h : Encloses (Text.trim t)) : Encloses t := by
  obtain ⟨s, s', hs, hs', he⟩ := Text.exists_trim t
  have hright : Encloses (Text.trim t ++ s') := by
    apply h.append (.of_inert fun c hc => isInert_of_isSpace (hs' c hc))
    intro hq
    exact absurd (hs' _ (List.mem_of_head? hq)) (by decide)
  rw [he]
  exact hright.inert_append fun c hc => isInert_of_isSpace (hs c hc)

end

end ControlLanguage
