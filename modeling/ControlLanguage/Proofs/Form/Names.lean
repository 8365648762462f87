import ControlLanguage.Proofs.Form.Values

/-!
# Names and special values in forms

A name, and a star with a name behind it, are their own literals, and both
are words. So the text of a leaf that holds one is read as the same leaf.
-/

namespace ControlLanguage

/-- A name, or a special value that is a star and a name. -/
def isPlain (t : Text) : Bool := Word.isSimpleName t || (t.head? == some '*' && Word.isName (t.drop 1))

def unlessBlank (t : Text) : Text := if Text.isBlankText t then [] else t

section
variable {t : Text} {ts : List Text} {l : Leaf} {ls : List Leaf} {allowed : List Text} {declared : Text}

theorem unlessBlank_eq_nil_iff : unlessBlank t = [] ↔ Text.isBlankText t = true := by
  unfold unlessBlank
  by_cases h : Text.isBlankText t = true
  · simp [h]
  · rw [if_neg h]
    apply iff_of_false _ h
    intro he
    rw [he] at h
    exact h rfl

theorem isPlain_cases (h : isPlain t = true) :
    Word.isSimpleName t = true ∨ ∃ name, t = '*' :: name ∧ Word.isName name = true := by
  unfold isPlain at h
  cases t with
  | nil => exact absurd h (by decide)
  | cons c cs =>
    simp only [List.head?_cons, List.drop_succ_cons, List.drop_zero, Bool.or_eq_true, Bool.and_eq_true, beq_iff_eq,
      Option.some.injEq] at h
    rcases h with h | h
    · exact .inl h
    · exact .inr ⟨cs, by rw [h.1], h.2⟩

theorem isPart_of_isName (h : Word.isName t = true) : isPart t = true := by
  have hcommand := Word.isCommand_of_isName h
  have hordinary := List.all_eq_true.mp (Word.isOrdinary_of_isCommand hcommand)
  have hslash := Word.slash_not_mem (Word.all_of_isName h)
  simp only [isPart, Bool.or_eq_true, List.all_eq_true, Bool.and_eq_true, Bool.not_eq_true', bne_iff_ne]
  right
  intro c hc
  refine ⟨⟨hordinary c hc, Word.not_isSpace_of_isCommand hcommand c hc⟩, ?_⟩
  intro he
  rw [he] at hc
  exact hslash hc

theorem isPart_of_isPlain (h : isPlain t = true) : isPart t = true := by
  rcases isPlain_cases h with h | h
  · simp only [Word.isSimpleName, Bool.and_eq_true] at h
    exact isPart_of_isName h.2
  · obtain ⟨name, rfl, hname⟩ := h
    rcases isPart_cases (isPart_of_isName hname) with hquoted | hall
    · obtain ⟨u, hu⟩ := List.head?_eq_some_iff.mp (head?_literal hquoted)
      rw [hu] at hname
      exact absurd hname (by simp [Word.isName, show startsName '\'' = false by decide])
    · simp only [isPart, Bool.or_eq_true, List.all_eq_true, Bool.and_eq_true, Bool.not_eq_true', bne_iff_ne]
      right
      rw [List.forall_mem_cons]
      exact ⟨by decide, fun c hc => ⟨⟨(hall c hc).1, (hall c hc).2.1⟩, (hall c hc).2.2⟩⟩

theorem ne_nil_of_isPlain (h : isPlain t = true) : t ≠ [] := by
  intro he
  rw [he] at h
  exact absurd h (by decide)

theorem isWord_of_isPlain (h : isPlain t = true) : IsWord t :=
  isWord_of_isPart (isPart_of_isPlain h) (ne_nil_of_isPlain h)

theorem isBlankText_of_isPlain (h : isPlain t = true) : Text.isBlankText t = false := by
  rw [Text.isBlankText, (isWord_of_isPlain h).trim, List.isEmpty_eq_false_iff]
  exact ne_nil_of_isPlain h

theorem map_unlessBlank (h : ∀ t ∈ ts, isPlain t = true) : ts.map unlessBlank = ts := by
  rw [List.map_congr_left (g := id), List.map_id]
  intro t ht
  rw [unlessBlank, isBlankText_of_isPlain (h t ht)]
  rfl

theorem literal_of_isPlain (h : isPlain t = true) : literal t allowed declared = t := by
  have htrim := (isWord_of_isPlain h).trim
  have hbare : standsBare allowed (typeName declared) t = true := by
    rcases isPlain_cases h with h | h
    · simp [standsBare, h]
    · obtain ⟨name, rfl, -⟩ := h
      simp [standsBare]
  unfold literal
  simp only [htrim, hbare, Bool.or_true, if_true]

namespace Leaf

theorem settle_of_isPlain (h : isPlain t = true) : l.settle t = t := by
  rw [settle_eq, literal_of_isPlain h]

theorem settle_eq_unlessBlank (h : Text.isBlankText t = true ∨ isPlain t = true) : l.settle t = unlessBlank t := by
  unfold settle unlessBlank
  rcases h with h | h
  · rw [if_pos h, if_pos h]
  · rw [literal_of_isPlain h]

theorem takes_of_isPlain (h : Text.isBlankText t = true ∨ isPlain t = true) : l.Takes t := by
  intro hb
  rcases h with h | h
  · rw [h] at hb; cases hb
  · rw [literal_of_isPlain h]
    exact isPart_of_isPlain h

theorem forall₂_takes (hl : ts.length = ls.length) (h : ∀ t ∈ ts, Text.isBlankText t = true ∨ isPlain t = true) :
    List.Forall₂ Takes ls ts := by
  induction ts generalizing ls with
  | nil =>
    cases ls with
    | nil => exact .nil
    | cons => cases hl
  | cons t ts ih =>
    cases ls with
    | nil => cases hl
    | cons l ls =>
      obtain ⟨ht, hts⟩ := List.forall_mem_cons.mp h
      exact .cons (takes_of_isPlain ht) (ih (by simpa using hl) hts)

theorem zipWith_settle (hl : ts.length = ls.length) (h : ∀ t ∈ ts, Text.isBlankText t = true ∨ isPlain t = true) :
    List.zipWith settle ls ts = ts.map unlessBlank := by
  induction ts generalizing ls with
  | nil => simp
  | cons t ts ih =>
    cases ls with
    | nil => cases hl
    | cons l ls =>
      obtain ⟨ht, hts⟩ := List.forall_mem_cons.mp h
      rw [List.zipWith_cons_cons, settle_eq_unlessBlank ht, ih (by simpa using hl) hts, List.map_cons]

end Leaf

end

end ControlLanguage
