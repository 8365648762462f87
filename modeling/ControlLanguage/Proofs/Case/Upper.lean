import Mathlib.Data.List.Basic
import ControlLanguage.Proofs.Nesting.Cutting

/-!
# Upper case twice

The upper case of a text is its own upper case, also where a letter has more
than one character in upper case, and it brings no white space into the text.
So a text that is kept trimmed and in upper case stays as it is when it is
trimmed and put in upper case again: `Text.normal_normal`.
-/

namespace ControlLanguage

namespace Text

/-- A text as schemas keep it: trimmed and in upper case. -/
def normal (t : Text) : Text := upper (trim t)

theorem upper_upper (t : Text) : upper (upper t) = upper t := by
  rw [upper, upper, List.flatMap_assoc]
  refine List.flatMap_congr fun c _ => ?_
  rw [List.flatMap_congr fun u hu => upperChar_of_mem_upperChar hu]
  exact List.flatMap_singleton' _

theorem trim_upper_of_ends {t : Text} (hf : ∀ c ∈ t.head?, isSpace c = false)
    (hl : ∀ c ∈ t.getLast?, isSpace c = false) :
    trim (upper t) = upper t := by
  have hspace : ∀ {c u : Char}, u ∈ upperChar c → isSpace c = false → isSpace u = false := by
    intro c u hu hc
    by_cases hne : u = c
    · rw [hne, hc]
    · exact isSpace_of_mem_upperChar hu hne
  apply trim_eq_self
  · intro u hu
    cases t with
    | nil => cases hu
    | cons c t =>
      rw [upper_cons, List.head?_append_of_ne_nil _ (upperChar_ne_nil c)] at hu
      exact hspace (List.mem_of_head? hu) (hf c rfl)
  · intro u hu
    rcases List.eq_nil_or_concat t with rfl | ⟨cs, c, rfl⟩
    · cases hu
    · rw [List.concat_eq_append] at hu hl
      rw [upper_append, upper_cons, show upper [] = [] from rfl, List.append_nil,
        List.getLast?_append_of_ne_nil _ (upperChar_ne_nil c)] at hu
      exact hspace (List.mem_of_getLast? hu) (hl c (by rw [List.getLast?_concat]; rfl))

theorem normal_normal (t : Text) : normal (normal t) = normal t := by
  rw [normal, normal, trim_upper_of_ends (not_isSpace_head_trim t) (not_isSpace_getLast_trim t), upper_upper]

end Text

end ControlLanguage
