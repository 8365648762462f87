import ControlLanguage.Proofs.Nesting.Cutting
import ControlLanguage.Proofs.Spelling.Groups

/-!
# The words of a text

A word has no white space in it. Words with single blanks between them are
read as the same words again, whatever blanks stand around them.
-/

namespace ControlLanguage

structure Unspaced (w : Text) : Prop where
  ne_nil : w ≠ []
  not_isSpace : ∀ c ∈ w, isSpace c = false

namespace Text

variable {c : Char} {s t w : Text} {ws : List Text}

theorem words_cons_space (h : isSpace c = true) (t : Text) : words (c :: t) = words t := by
  rw [words, if_pos h]

theorem words_eq_nil (h : ∀ c ∈ t, isSpace c = true) : words t = [] := by
  induction t with
  | nil => rfl
  | cons c t ih =>
    obtain ⟨hc, ht⟩ := List.forall_mem_cons.mp h
    rw [words_cons_space hc, ih ht]

theorem words_append_space (hc : isSpace c = true) (t : Text) : words (t ++ [c]) = words t := by
  induction t with
  | nil => exact words_eq_nil (by simpa using hc)
  | cons d t ih =>
    have hhead : (t ++ [c]).head?.all isSpace = t.head?.all isSpace := by
      cases t with
      | nil => exact hc
      | cons => rfl
    rw [List.cons_append, words, words, ih, hhead]

theorem words_trim (t : Text) : words (trim t) = words t :=
  apply_trim (fun _ t hc => words_cons_space hc t) (fun _ t hc => words_append_space hc t) t

theorem unspaced_of_mem_words (h : w ∈ words t) : Unspaced w := by
  induction t generalizing w with
  | nil => cases h
  | cons c t ih =>
    unfold words at h
    split at h
    · exact ih h
    · next hc =>
      have hsingle : Unspaced [c] := ⟨List.cons_ne_nil _ _, by simpa using hc⟩
      split at h
      · rcases List.mem_cons.mp h with rfl | h
        · exact hsingle
        · exact ih h
      · split at h
        · rw [List.mem_singleton.mp h]; exact hsingle
        · next v vs hv =>
          rcases List.mem_cons.mp h with rfl | h
          · have := ih (w := v) (by rw [hv]; exact List.mem_cons_self ..)
            exact ⟨List.cons_ne_nil _ _, List.forall_mem_cons.mpr ⟨by simpa using hc, this.not_isSpace⟩⟩
          · exact ih (by rw [hv]; exact List.mem_cons_of_mem _ h)

theorem words_append (hw : Unspaced w) (ht : t.head?.all isSpace = true) : words (w ++ t) = w :: words t := by
  obtain ⟨hn, hs⟩ := hw
  induction w with
  | nil => exact absurd rfl hn
  | cons c w ih =>
    obtain ⟨hc, hs⟩ := List.forall_mem_cons.mp hs
    rw [List.cons_append, words, if_neg (by simp [hc])]
    cases w with
    | nil => rw [List.nil_append, if_pos ht]
    | cons d w =>
      have hd : isSpace d = false := hs d (List.mem_cons_self ..)
      rw [List.cons_append, if_neg (by simp [hd]), ← List.cons_append, ih (List.cons_ne_nil _ _) hs]

theorem words_flatMap (h : ∀ w ∈ ws, Unspaced w) (hs : ∀ c ∈ s, isSpace c = true) :
    words (ws.flatMap (' ' :: ·) ++ s) = ws := by
  induction ws with
  | nil => exact words_eq_nil hs
  | cons w ws ih =>
    obtain ⟨hw, hws⟩ := List.forall_mem_cons.mp h
    have hhead : (ws.flatMap (' ' :: ·) ++ s).head?.all isSpace = true := by
      cases ws with
      | nil =>
        cases s with
        | nil => rfl
        | cons c s => exact hs c (List.mem_cons_self ..)
      | cons => rfl
    rw [List.flatMap_cons, List.cons_append, List.cons_append, words_cons_space (by decide), List.append_assoc,
      words_append hw hhead, ih hws]

theorem words_unwords (h : ∀ w ∈ ws, Unspaced w) : words (unwords ws) = ws := by
  cases ws with
  | nil => rfl
  | cons w ws =>
    rw [← words_cons_space (c := ' ') (by decide), cons_unwords, ← List.append_nil (List.flatMap ..)]
    exact words_flatMap h (by simp)

theorem words_of_unspaced (hw : Unspaced w) : words w = [w] := by
  rw [← unwords_singleton w, words_unwords (List.forall_mem_singleton.mpr hw), unwords_singleton]

theorem isBlankText_iff : isBlankText t = true ↔ ∀ c ∈ t, isSpace c = true := by
  rw [isBlankText, List.isEmpty_iff, trim, trimRight_eq_nil_iff, trimLeft]
  constructor
  · intro h c hc
    rw [← List.takeWhile_append_dropWhile (p := isSpace) (l := t)] at hc
    rcases List.mem_append.mp hc with hc | hc
    · exact List.mem_takeWhile_imp hc
    · exact h c hc
  · exact fun h c hc => h c ((List.dropWhile_sublist _).subset hc)

theorem words_of_blank (h : isBlankText t = true) : words t = [] := words_eq_nil (isBlankText_iff.mp h)

theorem isBlankText_append : isBlankText (s ++ t) = true ↔ isBlankText s = true ∧ isBlankText t = true := by
  rw [isBlankText_iff, isBlankText_iff, isBlankText_iff, List.forall_mem_append]

theorem isBlankText_unwords : isBlankText (unwords ws) = true ↔ ∀ w ∈ ws, isBlankText w = true := by
  induction ws with
  | nil => simp [unwords, isBlankText, trim, trimLeft, trimRight]
  | cons w ws ih =>
    rw [unwords_cons, isBlankText_append, List.forall_mem_cons, ← ih]
    cases ws with
    | nil => rfl
    | cons v vs =>
      rw [← cons_unwords, ← List.singleton_append, isBlankText_append]
      simp only [show isBlankText [' '] = true from rfl, true_and]

end Text

theorem Unspaced.closes {w : Text} (h : Unspaced w) : Closes w :=
  (tight_of_not_isSpace h.ne_nil h.not_isSpace).closes

theorem Unspaced.head?_ne {w : Text} (h : Unspaced w) : w.head? ≠ some ' ' := by
  intro hw
  have := h.not_isSpace ' ' (List.mem_of_mem_head? hw)
  exact absurd this (by decide)

end ControlLanguage
