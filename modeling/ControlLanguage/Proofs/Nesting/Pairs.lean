import Mathlib.Order.Bounds.Basic
import ControlLanguage.Proofs.Token.Depth

/-!
# Pairs of parentheses

Outside of literals the scan of a text can start anew: it gives the same
marks, each at a depth that is less by the depth of the place. So the
parenthesis that closes another is the first one behind it that closes at its
depth, everything between the two lies deeper, and of two pairs one stands
inside the other or both stand apart.
-/

namespace ControlLanguage

/-- What is open just before the character at an offset. -/
def nestingAt (text : Text) (p : Nat) : Nesting := Nesting.start.after text[p]? (text.take p)

def Mark.deeper (m : Mark) (k : Int) : Mark := { m with depth := m.depth + k }

/-- Whether a mark is a parenthesis that closes one at the given depth. -/
def Mark.closesAt (d : Int) (m : Mark) : Bool := m.role == .parenClose && m.depth == d

/-- The places behind `p` where a parenthesis closes one at the depth `d`. -/
def closings (text : Text) (p : Nat) (d : Int) : Set Nat :=
  {q | p < q ∧ ∃ m, (marks text)[q]? = some m ∧ m.role = .parenClose ∧ m.depth = d}

section
variable {n : Nesting} {c : Char} {next : Option Char} {i p p' q q' : Nat} {k : Int} {t text : Text}
    {l m o o' : Mark}

/-! ## Scanning from a place outside literals -/

theorem marksFrom_deeper (n : Nesting) (k : Int) (i : Nat) (t : Text) :
    marksFrom (n.deeper k) i t = (marksFrom n i t).map (·.deeper k) := by
  induction t generalizing n i with
  | nil => rfl
  | cons c t ih =>
    rw [marksFrom_cons, marksFrom_cons, Nesting.depthAt_deeper, Nesting.step_deeper, ih]
    rfl

theorem drop_marks (text : Text) (p : Nat) :
    (marks text).drop p = marksFrom (nestingAt text p) p (text.drop p) := by
  rcases Nat.le_total p text.length with hp | hp
  · have hlen : (marksBefore text[p]? .start 0 (text.take p)).length = p := by
      rw [length_marksBefore, List.length_take, Nat.min_eq_left hp]
    conv_lhs => rw [← List.take_append_drop p text]
    rw [marks_eq, marksFrom_append, List.head?_drop, List.drop_left' hlen, List.length_take, Nat.min_eq_left hp,
      Nat.zero_add]
    rfl
  · rw [List.drop_eq_nil_of_le hp, List.drop_eq_nil_of_le (by rw [marks_eq, length_marksFrom]; exact hp)]
    rfl

/-- Nothing is lost where the scan starts anew outside of literals, except for the depth that was reached. -/
theorem drop_marks_of_outside (h : (nestingAt text p).mode = .outside) :
    (marks text).drop p = (marks text p).map (·.deeper (nestingAt text p).depth) := by
  have hdeeper : nestingAt text p = Nesting.start.deeper (nestingAt text p).depth := by
    rw [start_deeper, ← h]
  rw [drop_marks, marks, ← marksFrom_deeper, ← hdeeper]

/-! ## Behind an opening parenthesis -/

theorem Nesting.eq_of_step_parenOpen (h : (n.step c next).1 = .parenOpen) :
    n.mode = .outside ∧ c = '(' ∧ n.depthAt c next = n.depth ∧ (n.step c next).2 = ⟨.outside, n.depth + 1⟩ := by
  obtain ⟨mode, d⟩ := n
  unfold depthAt step at *
  grind

theorem exists_drop_marks_of_open (h : (marks text)[p]? = some o) (ho : o.role = .parenOpen) : ∃ rest,
    text.drop p = '(' :: rest ∧ nestingAt text p = ⟨.outside, o.depth⟩ ∧
      (marks text).drop p = o :: marksFrom ⟨.outside, o.depth + 1⟩ (p + 1) rest := by
  have hhead : ((marks text).drop p).head? = some o := by rw [List.head?_drop, h]
  rw [drop_marks] at hhead ⊢
  generalize nestingAt text p = n at hhead ⊢
  cases htext : text.drop p with
  | nil => rw [htext] at hhead; cases hhead
  | cons c rest =>
    rw [htext, marksFrom_cons, List.head?_cons, Option.some_inj] at hhead
    subst hhead
    obtain ⟨hmode, rfl, hdepth, hstep⟩ := Nesting.eq_of_step_parenOpen ho
    refine ⟨rest, rfl, ?_, ?_⟩
    · rw [hdepth, ← hmode]
    · rw [marksFrom_cons, hstep, hdepth]

theorem closingParen?_of_open (h : (marks text)[p]? = some o) (ho : o.role = .parenOpen) :
    closingParen? text p = (((marks text).drop p).find? (·.closesAt o.depth)).map (·.index) := by
  obtain ⟨rest, htext, hnesting, -⟩ := exists_drop_marks_of_open h ho
  have hopen : text[p]? = some '(' := by rw [← List.head?_drop, htext, List.head?_cons]
  have hcloses : (fun m : Mark => m.closesAt o.depth) ∘ (fun m => m.deeper o.depth) = Mark.closesFirst := by
    funext m
    have hdepth : (m.depth + o.depth == o.depth) = (m.depth == 0) := by
      rw [Bool.eq_iff_iff, beq_iff_eq, beq_iff_eq]; omega
    simp only [Function.comp_apply, Mark.closesAt, Mark.deeper, Mark.closesFirst, hdepth]
  rw [drop_marks_of_outside (by rw [hnesting]), hnesting, List.find?_map, hcloses, Option.map_map, closingParen?,
    if_pos hopen]
  rfl

/-- Behind a place above the depth `k` everything lies deeper, up to the first parenthesis that closes at `k`. -/
theorem depth_lt_of_find?_closesAt (hn : k < n.depth) (hl : (marksFrom n i t).find? (·.closesAt k) = some l)
    (hm : m ∈ marksFrom n i t) (hlt : m.index < l.index) : k < m.depth := by
  induction t generalizing n i with
  | nil => cases hm
  | cons c t ih =>
    rw [marksFrom_cons] at hl hm
    rcases Nesting.depthAt_cases hn c t.head? with ⟨hrole, hdepth⟩ | ⟨hdepth, hnext⟩
    · rw [List.find?_cons_of_pos (by simp [Mark.closesAt, hrole, hdepth]), Option.some_inj] at hl
      subst hl
      rcases List.mem_cons.mp hm with rfl | hm
      · exact absurd hlt (Nat.lt_irrefl _)
      · have := index_of_mem_marksFrom hm
        simp only at hlt; omega
    · rw [List.find?_cons_of_neg (by simp [Mark.closesAt]; omega)] at hl
      rcases List.mem_cons.mp hm with rfl | hm
      · exact hdepth
      · exact ih hnext hl hm

/-! ## The closing parenthesis -/

theorem index_of_getElem?_marksFrom (h : (marksFrom n i t)[p]? = some m) : m.index = i + p := by
  induction t generalizing n i p with
  | nil => cases h
  | cons c t ih =>
    rw [marksFrom_cons] at h
    cases p with
    | zero =>
      rw [List.getElem?_cons_zero, Option.some_inj] at h
      subst h
      rfl
    | succ p =>
      rw [List.getElem?_cons_succ] at h
      have := ih h
      omega

theorem index_of_getElem?_marks (h : (marks text)[p]? = some m) : m.index = p := by
  have := index_of_getElem?_marksFrom h
  omega

theorem getElem?_drop_marks (h : p ≤ q) : ((marks text).drop p)[q - p]? = (marks text)[q]? := by
  rw [List.getElem?_drop, Nat.add_sub_cancel' h]

theorem isLeast_closings_of_find? (h : (marks text)[p]? = some o) (ho : o.role = .parenOpen)
    (hm : ((marks text).drop p).find? (·.closesAt o.depth) = some m) :
    IsLeast (closings text p o.depth) m.index := by
  obtain ⟨hcloses, j, hj, hget, hbefore⟩ := List.find?_eq_some_iff_getElem.mp hm
  have hmark : (marks text)[p + j]? = some m := by
    rw [← List.getElem?_drop, List.getElem?_eq_getElem hj, hget]
  simp only [Mark.closesAt, Bool.and_eq_true, beq_iff_eq] at hcloses
  rw [index_of_getElem?_marks hmark]
  refine ⟨⟨?_, m, hmark, hcloses⟩, fun q ⟨hq, l, hl, hrole, hdepth⟩ => ?_⟩
  · refine Nat.lt_of_le_of_ne (Nat.le_add_right p j) fun hp => ?_
    rw [← hp, h, Option.some_inj] at hmark
    rw [← hmark, ho] at hcloses
    cases hcloses.1
  · by_contra hlt
    have hbefore' := hbefore (q - p) (by omega)
    rw [← getElem?_drop_marks (Nat.le_of_lt hq)] at hl
    rw [(List.getElem?_eq_some_iff.mp hl).2] at hbefore'
    simp [Mark.closesAt, hrole, hdepth] at hbefore'

theorem closings_eq_empty_of_find? (hn : ((marks text).drop p).find? (·.closesAt k) = none) :
    closings text p k = ∅ := by
  rw [Set.eq_empty_iff_forall_notMem]
  rintro q ⟨hq, l, hl, hrole, hdepth⟩
  rw [← getElem?_drop_marks (Nat.le_of_lt hq)] at hl
  have := List.find?_eq_none.mp hn l (List.mem_of_getElem? hl)
  simp [Mark.closesAt, hrole, hdepth] at this

theorem closingParen?_eq_some_iff (h : (marks text)[p]? = some o) (ho : o.role = .parenOpen) :
    closingParen? text p = some q ↔ IsLeast (closings text p o.depth) q := by
  rw [closingParen?_of_open h ho]
  cases hm : ((marks text).drop p).find? (·.closesAt o.depth) with
  | none =>
    rw [closings_eq_empty_of_find? hm]
    exact iff_of_false (by simp) fun hq => Set.notMem_empty q hq.1
  | some m =>
    have hleast := isLeast_closings_of_find? h ho hm
    rw [Option.map_some, Option.some_inj]
    exact ⟨fun hq => hq ▸ hleast, fun hq => hleast.unique hq⟩

theorem closingParen?_eq_none_iff (h : (marks text)[p]? = some o) (ho : o.role = .parenOpen) :
    closingParen? text p = none ↔ closings text p o.depth = ∅ := by
  rw [closingParen?_of_open h ho]
  cases hm : ((marks text).drop p).find? (·.closesAt o.depth) with
  | none => exact iff_of_true rfl (closings_eq_empty_of_find? hm)
  | some m =>
    refine iff_of_false (by simp) fun hempty => ?_
    have hmem := (isLeast_closings_of_find? h ho hm).1
    rw [hempty] at hmem
    exact Set.notMem_empty _ hmem

/-! ## Pairs -/

theorem depth_lt_of_between (h : (marks text)[p]? = some o) (ho : o.role = .parenOpen)
    (hq : closingParen? text p = some q) (hi : p < i) (hiq : i < q) (hm : (marks text)[i]? = some m) :
    o.depth < m.depth := by
  obtain ⟨rest, -, -, hdrop⟩ := exists_drop_marks_of_open h ho
  rw [closingParen?_of_open h ho, hdrop, List.find?_cons_of_neg (by simp [Mark.closesAt, ho])] at hq
  obtain ⟨l, hl, hindex⟩ := Option.map_eq_some_iff.mp hq
  have hmem : m ∈ marksFrom ⟨.outside, o.depth + 1⟩ (p + 1) rest := by
    obtain ⟨j, hj⟩ : ∃ j, i - p = j + 1 := ⟨i - p - 1, by omega⟩
    rw [← getElem?_drop_marks (Nat.le_of_lt hi), hdrop, hj, List.getElem?_cons_succ] at hm
    exact List.mem_of_getElem? hm
  refine depth_lt_of_find?_closesAt (by simp only; omega) hl hmem ?_
  rw [index_of_getElem?_marks hm, hindex]
  exact hiq

theorem lt_or_lt_of_pairs (h : (marks text)[p]? = some o) (ho : o.role = .parenOpen)
    (h' : (marks text)[p']? = some o') (ho' : o'.role = .parenOpen) (hp : p < p')
    (hq : closingParen? text p = some q) (hq' : closingParen? text p' = some q') : q < p' ∨ q' < q := by
  by_contra hcross
  obtain ⟨hpq, m, hm, hrole, hdepth⟩ := ((closingParen?_eq_some_iff h ho).mp hq).1
  obtain ⟨hpq', m', hm', -, hdepth'⟩ := ((closingParen?_eq_some_iff h' ho').mp hq').1
  have hne : p' ≠ q := by
    rintro rfl
    rw [h', Option.some_inj] at hm
    rw [← hm, ho'] at hrole
    cases hrole
  -- the later one opens between the two of the first pair, so it lies deeper
  have hdeeper : o.depth < o'.depth := depth_lt_of_between h ho hq hp (by omega) h'
  rcases Nat.lt_or_ge q q' with hlt | hge
  · have := depth_lt_of_between h' ho' hq' (by omega) hlt hm
    omega
  · obtain rfl : q = q' := by omega
    rw [hm, Option.some_inj] at hm'
    rw [hm'] at hdepth
    omega

/-- Matching parentheses is local and well nested. Where a place lies outside literals, a scan from there on gives
the marks of the whole scan, less the depth of the place. An opening parenthesis is closed by the first one behind
it that closes at its depth; everything between the two lies deeper; and of two pairs one stands inside the other or
both stand apart. -/
theorem closingParen?_nested (text : Text) :
    (∀ p, (nestingAt text p).mode = .outside →
      (marks text).drop p = (marks text p).map (·.deeper (nestingAt text p).depth)) ∧
    (∀ p o, (marks text)[p]? = some o → o.role = .parenOpen →
      (∀ q, closingParen? text p = some q ↔ IsLeast (closings text p o.depth) q) ∧
      (closingParen? text p = none ↔ closings text p o.depth = ∅) ∧
      ∀ q, closingParen? text p = some q →
        ∀ i m, p < i → i < q → (marks text)[i]? = some m → o.depth < m.depth) ∧
    ∀ p p' o o' q q', (marks text)[p]? = some o → o.role = .parenOpen →
      (marks text)[p']? = some o' → o'.role = .parenOpen → p < p' →
        closingParen? text p = some q → closingParen? text p' = some q' → q < p' ∨ q' < q := by
  refine ⟨fun p h => drop_marks_of_outside h, fun p o h ho => ⟨fun q => closingParen?_eq_some_iff h ho,
    closingParen?_eq_none_iff h ho, fun q hq i m hi hiq hm => depth_lt_of_between h ho hq hi hiq hm⟩, ?_⟩
  intro p p' o o' q q' h ho h' ho' hp hq hq'
  exact lt_or_lt_of_pairs h ho h' ho' hp hq hq'

/-- Below the depth zero, with a parenthesis inside of a literal and one that is not closed. -/
theorem closingParen?_nested_negative : let text := ")(')' (B))(".toList
    (marks text).drop 6 = (marks text 6).map (·.deeper 0) ∧
    IsLeast (closings text 1 (-1)) 9 ∧ closings text 10 (-1) = ∅ ∧
    (∀ i m, 1 < i → i < 9 → (marks text)[i]? = some m → -1 < m.depth) ∧ (9 < 6 ∨ 8 < 9) := by
  obtain ⟨hlocal, hpair, hnested⟩ := closingParen?_nested ")(')' (B))(".toList
  obtain ⟨hleast, -, hbetween⟩ := hpair 1 ⟨1, '(', .parenOpen, -1⟩ (by decide) rfl
  obtain ⟨-, hnone, -⟩ := hpair 10 ⟨10, '(', .parenOpen, -1⟩ (by decide) rfl
  refine ⟨hlocal 6 (by decide), (hleast 9).mp (by decide), hnone.mp (by decide), hbetween 9 (by decide), ?_⟩
  exact hnested 1 6 ⟨1, '(', .parenOpen, -1⟩ ⟨6, '(', .parenOpen, 0⟩ 9 8 (by decide) rfl (by decide) rfl (by decide)
    (by decide) (by decide)

end

end ControlLanguage
