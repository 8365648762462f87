import ControlLanguage.Text.Space

/-!
# Texts

A text is the list of its characters, so that every index, length and column
counts characters. Here are the operations on texts that know nothing of
commands: trimming, words and joining.
-/

namespace ControlLanguage

abbrev Text := List Char

namespace Text

def trimLeft (t : Text) : Text := t.dropWhile isSpace

def trimRight : Text → Text
  | [] => []
  | c :: cs =>
    match trimRight cs with
    | [] => if isSpace c then [] else [c]
    | d :: ds => c :: d :: ds

def trim (t : Text) : Text := trimRight (trimLeft t)

def isBlankText (t : Text) : Bool := (trim t).isEmpty

/-- The maximal runs of characters that are not white space. -/
def words : Text → List Text
  | [] => []
  | c :: cs =>
    if isSpace c then words cs
    else if cs.head?.all isSpace then [c] :: words cs
    else
      match words cs with
      | [] => [[c]]
      | w :: ws => (c :: w) :: ws

/-- The texts one after the other with a single blank between them. -/
def unwords (ts : List Text) : Text := [' '].intercalate ts

def blanks (n : Nat) : Text := List.replicate n ' '

/-- The offset of the first place at or after `start` where `needle` occurs. -/
def find? (needle : Text) : Text → Nat → Option Nat
  | [], _ => if needle.isEmpty then some 0 else none
  | c :: cs, 0 =>
    if needle.isPrefixOf (c :: cs) then some 0 else (find? needle cs 0).map (· + 1)
  | _ :: cs, start + 1 => (find? needle cs start).map (· + 1)

/-! ## Trimming -/

theorem trimRight_eq_nil_iff {t : Text} : trimRight t = [] ↔ ∀ c ∈ t, isSpace c = true := by
  induction t with
  | nil => simp [trimRight]
  | cons c cs ih =>
    simp only [trimRight]
    split
    · next h => split <;> simp_all
    · next d ds h =>
      simp only [reduceCtorEq, List.mem_cons, forall_eq_or_imp, false_iff, not_and]
      intro _ hs
      rw [ih.mpr hs] at h
      cases h

theorem trimRight_prefix (t : Text) : ∃ s, t = trimRight t ++ s ∧ ∀ c ∈ s, isSpace c = true := by
  induction t with
  | nil => exact ⟨[], rfl, by simp⟩
  | cons c cs ih =>
    obtain ⟨s, hs, hb⟩ := ih
    simp only [trimRight]
    split
    · next h =>
      rw [h, List.nil_append] at hs
      split
      · exact ⟨c :: cs, rfl, by simp_all⟩
      · exact ⟨cs, rfl, by simp_all⟩
    · next d ds h => exact ⟨s, by rw [h] at hs; rw [hs]; rfl, hb⟩

/-- A text is what is left of it between white space. -/
theorem exists_trim (t : Text) : ∃ s s', (∀ c ∈ s, isSpace c = true) ∧ (∀ c ∈ s', isSpace c = true) ∧
    t = s ++ (trim t ++ s') := by
  obtain ⟨s', hs', hspace⟩ := trimRight_prefix (trimLeft t)
  refine ⟨t.takeWhile isSpace, s', List.all_eq_true.mp List.all_takeWhile, hspace, ?_⟩
  rw [trim, ← hs', trimLeft, List.takeWhile_append_dropWhile]

/-- White space around a text does not count for what does not depend on one such character at either end. -/
theorem apply_trim {α : Type} {f : Text → α} (hfront : ∀ c t, isSpace c = true → f (c :: t) = f t)
    (hback : ∀ c t, isSpace c = true → f (t ++ [c]) = f t) (t : Text) : f (trim t) = f t := by
  have hbefore : ∀ s : Text, (∀ c ∈ s, isSpace c = true) → ∀ t, f (s ++ t) = f t := by
    intro s hs t
    induction s with
    | nil => rfl
    | cons c s ih =>
      obtain ⟨hc, hs⟩ := List.forall_mem_cons.mp hs
      rw [List.cons_append, hfront c _ hc, ih hs]
  have hbehind : ∀ s : Text, (∀ c ∈ s, isSpace c = true) → ∀ t, f (t ++ s) = f t := by
    intro s hs t
    induction s generalizing t with
    | nil => rw [List.append_nil]
    | cons c s ih =>
      obtain ⟨hc, hs⟩ := List.forall_mem_cons.mp hs
      rw [List.append_cons, ih hs, hback c t hc]
  obtain ⟨s, s', hs, hs', he⟩ := exists_trim t
  calc f (trim t) = f (trim t ++ s') := (hbehind s' hs' _).symm
    _ = f (s ++ (trim t ++ s')) := (hbefore s hs _).symm
    _ = f t := by rw [← he]

end Text

end ControlLanguage
