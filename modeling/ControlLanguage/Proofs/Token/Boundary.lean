import ControlLanguage.Proofs.Nesting.Append
import ControlLanguage.Token.OfText

/-!
# Where words and literals end

A word or a literal that ends in front of some text also ends in front of
any other text that starts with the same character, with a blank or with a
parenthesis. Only a literal without an end needs that nothing follows.
-/

namespace ControlLanguage

def isDelimiter (c : Char) : Bool := isBlank c || c == '(' || c == ')'

def startsDelimited (t : Text) : Bool := t.head?.all isDelimiter

/-- What may stand behind a token instead of `rest`. -/
def Replaces (rest' rest : Text) : Prop :=
  rest'.head? = rest.head? ∨ rest' = [] ∨ rest ≠ [] ∧ startsDelimited rest' = true

theorem Replaces.nil {rest' : Text} (h : Replaces rest' []) : rest' = [] := by
  rcases h with h | h | ⟨h, _⟩
  · simpa using h
  · exact h
  · exact absurd rfl h

theorem startsDelimited_quote {t : Text} (h : startsDelimited t = true) : t.head? ≠ some '\'' := by
  intro hq
  rw [startsDelimited, hq] at h
  exact absurd h (by decide)

theorem Replaces.startsDelimited {rest' rest : Text} (h : Replaces rest' rest)
    (hd : startsDelimited rest = true) : ControlLanguage.startsDelimited rest' = true := by
  rcases h with h | rfl | ⟨_, h⟩
  · rw [ControlLanguage.startsDelimited, h]; exact hd
  · rfl
  · exact h

theorem Replaces.head_any {rest' rest : Text} (h : Replaces rest' rest) {p : Char → Bool}
    (hp : ∀ c, isDelimiter c = true → p c = false) (hn : rest.head?.any p = false) :
    rest'.head?.any p = false := by
  rcases h with h | rfl | ⟨_, h⟩
  · rw [h]; exact hn
  · rfl
  · cases rest' with
    | nil => rfl
    | cons c cs => exact hp c h

/-! ## Words -/

def Mark.inWord (m : Mark) : Bool := m.role.inLiteral || (m.role == .plain && !isBlank m.char)

theorem inWord_eq_false_iff (n : Nesting) (i : Nat) (c : Char) (next : Option Char) :
    (Mark.mk i c (n.step c next).1 (n.depthAt c next)).inWord = false ↔
      n.mode = .outside ∧ isDelimiter c = true := by
  unfold Mark.inWord Nesting.step
  split
  · rename_i hm; simp [hm, Role.inLiteral]
  · rename_i hm
    simp only [hm]
    split
    · split <;> simp [Role.inLiteral]
    · simp [Role.inLiteral]
  · rename_i hm; simp only [hm]; split <;> simp [Role.inLiteral]
  · rename_i hm
    simp only [hm, true_and]
    split
    · rename_i hc; subst hc; simp [Role.inLiteral, isDelimiter, isBlank]
    · split
      · rename_i hc; subst hc; simp [Role.inLiteral, isDelimiter, isBlank]
      · split
        · rename_i hc; subst hc; simp [Role.inLiteral, isDelimiter]
        · split
          · rename_i hc; subst hc; simp [Role.inLiteral, isDelimiter]
          · rename_i h1 h2; simp [Role.inLiteral, isDelimiter, h1, h2]

theorem takeWhile_append_length_iff {α : Type} {p : α → Bool} {a b : List α} :
    ((a ++ b).takeWhile p).length = a.length ↔ a.all p = true ∧ b.head?.any p = false := by
  induction a with
  | nil =>
    cases b with
    | nil => simp
    | cons c cs => by_cases h : p c <;> simp [h]
  | cons c cs ih =>
    by_cases h : p c
    · simpa [h] using ih
    · simp [h]

theorem takeWhile_append_eq {α : Type} {p : α → Bool} {a b : List α}
    (h : ((a ++ b).takeWhile p).length = a.length) : (a ++ b).takeWhile p = a := by
  have := List.takeWhile_prefix p (l := a ++ b)
  rw [List.prefix_iff_eq_take, h, List.take_left] at this
  exact this

namespace Token

theorem wordLength_eq (t : Text) : wordLength t = ((marks t).takeWhile Mark.inWord).length := rfl

theorem wordLength_append_iff {w rest : Text} : wordLength (w ++ rest) = w.length ↔
    (marksBefore rest.head? .start 0 w).all Mark.inWord = true ∧
      (rest = [] ∨ (Nesting.start.after rest.head? w).mode = .outside ∧ startsDelimited rest = true) := by
  have hl := length_marksBefore rest.head? .start 0 w
  rw [wordLength_eq, marks_eq, marksFrom_append, ← hl, takeWhile_append_length_iff]
  cases rest with
  | nil => simp [marksFrom]
  | cons c cs =>
    rw [marksFrom_cons, List.head?_cons, List.head?_cons, Option.any_some, inWord_eq_false_iff]
    simp [startsDelimited]

theorem wordLength_congr {w rest rest' : Text} (hr : Replaces rest' rest)
    (h : wordLength (w ++ rest) = w.length) : wordLength (w ++ rest') = w.length := by
  rw [wordLength_append_iff] at h ⊢
  obtain ⟨hall, hend⟩ := h
  rcases hend with rfl | ⟨hm, hd⟩
  · rw [hr.nil]; exact ⟨hall, .inl rfl⟩
  · have hd' := hr.startsDelimited hd
    have hq : rest.head? = some '\'' ↔ rest'.head? = some '\'' :=
      ⟨fun h => absurd h (startsDelimited_quote hd), fun h => absurd h (startsDelimited_quote hd')⟩
    rw [marksBefore_congr hq] at hall
    rw [Nesting.after_congr hq] at hm
    exact ⟨hall, .inr ⟨hm, hd'⟩⟩

end Token

/-! ## Literals -/

theorem index_of_mem_marksFrom {m : Mark} {n : Nesting} {i : Nat} {t : Text}
    (h : m ∈ marksFrom n i t) : i ≤ m.index := by
  induction t generalizing n i with
  | nil => cases h
  | cons c cs ih =>
    rw [marksFrom_cons] at h
    cases h with
    | head => exact Nat.le_refl _
    | tail _ h => exact Nat.le_of_succ_le (ih h)

theorem pairwise_index_marksFrom (n : Nesting) (i : Nat) (t : Text) :
    (marksFrom n i t).Pairwise fun l m => l.index < m.index := by
  induction t generalizing n i with
  | nil => exact List.Pairwise.nil
  | cons c cs ih =>
    rw [marksFrom_cons]
    exact List.pairwise_cons.mpr ⟨fun m hm => index_of_mem_marksFrom hm, ih _ _⟩

theorem index_of_mem_marksBefore {m : Mark} {next : Option Char} {n : Nesting} {i : Nat} {t : Text}
    (h : m ∈ marksBefore next n i t) : m.index < i + t.length := by
  induction t generalizing n i with
  | nil => cases h
  | cons c cs ih =>
    rw [marksBefore] at h
    cases h with
    | head => simp
    | tail _ h => have := ih h; simp only [List.length_cons]; omega

theorem endOfLiteral_of_close {v rest : Text} {x : Char}
    (hv : ∀ m ∈ marksBefore (some x) .start 0 v, m.role ≠ .quoteClose)
    (hx : ((Nesting.start.after (some x) v).step x rest.head?).1 = .quoteClose) :
    endOfLiteral (v ++ x :: rest) = (v.length + 1, true) := by
  have hn : (marksBefore (some x) .start 0 v).find? (·.role == .quoteClose) = none := by
    rw [List.find?_eq_none]
    intro m hm; simpa using hv m hm
  rw [endOfLiteral, marks, List.drop_zero, marksFrom_append, List.head?_cons, List.find?_append, hn,
    marksFrom_cons, List.find?_cons_of_pos (by simp [hx])]
  simp

theorem close_of_endOfLiteral {v rest : Text} {x : Char} (hr : rest ≠ [])
    (h : (endOfLiteral (v ++ x :: rest)).1 = v.length + 1) :
    (∀ m ∈ marksBefore (some x) .start 0 v, m.role ≠ .quoteClose) ∧
      ((Nesting.start.after (some x) v).step x rest.head?).1 = .quoteClose := by
  rw [endOfLiteral, marks, List.drop_zero, marksFrom_append, List.head?_cons, List.find?_append] at h
  cases hf : (marksBefore (some x) .start 0 v).find? (·.role == .quoteClose) with
  | some m =>
    have := index_of_mem_marksBefore (List.mem_of_find?_eq_some hf)
    rw [hf] at h
    simp only [Option.some_or, Nat.zero_add] at h this
    omega
  | none =>
    refine ⟨fun m hm => by simpa using List.find?_eq_none.mp hf m hm, ?_⟩
    rw [hf, Option.none_or, marksFrom_cons] at h
    refine Classical.byContradiction fun hx => ?_
    rw [List.find?_cons_of_neg (by simpa using hx)] at h
    split at h
    · next m hm =>
      have := index_of_mem_marksFrom (List.mem_of_find?_eq_some hm)
      simp only at h this; omega
    · have := List.length_pos_iff.mpr hr
      simp only [List.length_append, List.length_cons] at h; omega

theorem Nesting.step_close {n : Nesting} {c : Char} {a b : Option Char}
    (h : (n.step c a).1 = .quoteClose) (hb : b ≠ some '\'') : (n.step c b).1 = .quoteClose := by
  unfold step at h ⊢
  split at h
  · cases h
  · split at h
    · rename_i hc; simp [hc, hb]
    · cases h
  · exact h
  · split at h
    · cases h
    · split at h
      · cases h
      · split at h
        · cases h
        · split at h <;> cases h

theorem endOfLiteral_congr {w rest rest' : Text} (hw : w ≠ []) (hr : Replaces rest' rest)
    (h : (endOfLiteral (w ++ rest)).1 = w.length) : (endOfLiteral (w ++ rest')).1 = w.length := by
  by_cases hn : rest = []
  · subst hn; rw [hr.nil]; exact h
  · obtain ⟨v, x, rfl⟩ := (List.eq_nil_or_concat w).resolve_left hw
    rw [List.concat_eq_append, List.append_assoc, List.singleton_append, List.length_append,
      List.length_singleton] at h ⊢
    obtain ⟨hv, hx⟩ := close_of_endOfLiteral hn h
    have hx' : ((Nesting.start.after (some x) v).step x rest'.head?).1 = .quoteClose := by
      rcases hr with hr | rfl | ⟨_, hr⟩
      · rw [hr]; exact hx
      · exact Nesting.step_close hx (by simp)
      · exact Nesting.step_close hx (startsDelimited_quote hr)
    rw [endOfLiteral_of_close hv hx']

end ControlLanguage
