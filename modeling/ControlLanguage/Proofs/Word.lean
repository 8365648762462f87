import Mathlib.Data.List.TakeDrop
import Mathlib.Data.List.TakeWhile
import ControlLanguage.Command.Basic
import ControlLanguage.Proofs.Case.Table
import ControlLanguage.Proofs.Token.Boundary

/-!
# Names and their upper case

The upper case of a name is a name of the same length, and writing it in
upper case again changes nothing. A command name has no blank, quote or
parenthesis in it, so a word that is one ends where the name ends.
-/

namespace ControlLanguage

/-! ## Characters -/

theorem isDelimiter_iff {c : Char} :
    isDelimiter c = true ↔ c = ' ' ∨ c = '\t' ∨ c = '(' ∨ c = ')' := by
  simp [isDelimiter, isBlank, or_assoc]

/-- Characters that neither end a word nor open a literal. -/
def isOrdinary (c : Char) : Bool := !isDelimiter c && c != '\'' && c != '"'

theorem isOrdinary_eq_false_iff {c : Char} : isOrdinary c = false ↔
    c = ' ' ∨ c = '\t' ∨ c = '(' ∨ c = ')' ∨ c = '\'' ∨ c = '"' := by
  have := isDelimiter_iff (c := c)
  by_cases h : isDelimiter c = true
  · simp only [isOrdinary, h]; grind
  · simp only [isOrdinary, h]; grind

def isUpperName (u : Char) : Bool :=
  u.isUpper || u.isDigit || u == '$' || u == '#' || u == '@' || u == '_'

theorem toNat_lt_of_isUpperName {u : Char} (h : isUpperName u = true) : u.toNat < 128 := by
  simp only [isUpperName, Bool.or_eq_true, beq_iff_eq] at h
  have hu : u.isUpper = true → u.toNat < 128 := by
    intro hu
    unfold Char.isUpper at hu
    simp only [decide_eq_true_eq, UInt32.le_iff_toNat_le] at hu
    exact Nat.lt_of_le_of_lt hu.2 (by decide)
  have hd : u.isDigit = true → u.toNat < 128 := by
    intro hd
    simp only [Char.isDigit, Bool.and_eq_true, decide_eq_true_eq, UInt32.le_iff_toNat_le] at hd
    exact Nat.lt_of_le_of_lt hd.2 (by decide)
  rcases h with ((((h | h) | rfl) | rfl) | rfl) | rfl
  · exact hu h
  · exact hd h
  all_goals decide

theorem upperChar_of_isUpperName {u : Char} (h : isUpperName u = true) : upperChar u = [u] := by
  refine ascii_forall (P := fun u => isUpperName u = true → upperChar u = [u]) ?_
    (toNat_lt_of_isUpperName h) h
  decide

theorem continuesName_iff {c : Char} :
    continuesName c = true ↔ ∃ u, upperChar c = [u] ∧ isUpperName u = true := by
  unfold continuesName
  split
  · next u hu => rw [hu]; simp [isUpperName]
  · next hu =>
    simp only [Bool.false_eq_true, false_iff, not_exists, not_and]
    exact fun u h => absurd h (hu u)

theorem startsName_iff {c : Char} : startsName c = true ↔
    ∃ u, upperChar c = [u] ∧ (u.isUpper || u == '$' || u == '#' || u == '@') = true := by
  unfold startsName
  split
  · next u hu => rw [hu]; simp
  · next hu =>
    simp only [Bool.false_eq_true, false_iff, not_exists, not_and]
    exact fun u h => absurd h (hu u)

theorem continuesName_of_startsName {c : Char} (h : startsName c = true) : continuesName c = true := by
  obtain ⟨u, hu, h⟩ := startsName_iff.mp h
  refine continuesName_iff.mpr ⟨u, hu, ?_⟩
  simp only [isUpperName, Bool.or_eq_true] at h ⊢
  rcases h with ((h | h) | h) | h <;> simp [h]

theorem isOrdinary_of_continuesName {c : Char} (h : continuesName c = true) : isOrdinary c = true := by
  rw [← Bool.not_eq_false]
  intro ho
  rcases isOrdinary_eq_false_iff.mp ho with rfl | rfl | rfl | rfl | rfl | rfl <;>
    exact absurd h (by decide)

theorem not_isDelimiter_of_isOrdinary {c : Char} (h : isOrdinary c = true) : isDelimiter c = false := by
  simp only [isOrdinary, Bool.and_eq_true, Bool.not_eq_true'] at h
  exact h.1.1

theorem continuesName_of_isDelimiter {c : Char} (h : isDelimiter c = true) : continuesName c = false := by
  rcases isDelimiter_iff.mp h with rfl | rfl | rfl | rfl <;> decide

theorem toNat_lt_of_isAlpha {c : Char} (h : c.isAlpha = true) : c.toNat < 128 := by
  unfold Char.isAlpha Char.isUpper Char.isLower at h
  simp only [Bool.or_eq_true, Bool.and_eq_true, decide_eq_true_eq, UInt32.le_iff_toNat_le] at h
  rcases h with h | h
  · exact Nat.lt_of_le_of_lt h.2 (by decide)
  · exact Nat.lt_of_le_of_lt h.2 (by decide)

theorem continuesName_of_isAlpha {c : Char} (h : c.isAlpha = true) : continuesName c = true :=
  ascii_forall (P := fun c => c.isAlpha = true → continuesName c = true) (by decide) (toNat_lt_of_isAlpha h) h

/-! ## Names -/

namespace Text

theorem upper_cons (c : Char) (cs : Text) : upper (c :: cs) = upperChar c ++ upper cs := rfl

theorem mem_upper_of_mem {c : Char} {t : Text} (hc : upperChar c = [c]) (h : c ∈ t) : c ∈ upper t :=
  List.mem_flatMap.mpr ⟨c, h, by simp [hc]⟩

theorem upper_of_continuesName {t : Text} (h : t.all continuesName = true) :
    (upper t).length = t.length ∧ (upper t).all continuesName = true ∧ upper (upper t) = upper t := by
  induction t with
  | nil => exact ⟨rfl, rfl, rfl⟩
  | cons c cs ih =>
    rw [List.all_cons, Bool.and_eq_true] at h
    obtain ⟨u, hu, hn⟩ := continuesName_iff.mp h.1
    obtain ⟨hl, ha, hi⟩ := ih h.2
    have huu := upperChar_of_isUpperName hn
    rw [upper_cons, hu, List.singleton_append]
    refine ⟨by simp [hl], ?_, by rw [upper_cons, huu, hi]; rfl⟩
    rw [List.all_cons, ha, continuesName_iff.mpr ⟨u, huu, hn⟩]; rfl

end Text

namespace Word

theorem all_of_isName {t : Text} (h : isName t = true) : t.all continuesName = true := by
  cases t with
  | nil => cases h
  | cons c cs =>
    simp only [isName, Bool.and_eq_true] at h
    rw [List.all_cons, continuesName_of_startsName h.1, h.2]; rfl

theorem isName_upper {t : Text} (h : isName t = true) : isName (Text.upper t) = true := by
  cases t with
  | nil => cases h
  | cons c cs =>
    simp only [isName, Bool.and_eq_true] at h
    obtain ⟨u, hu, hn⟩ := startsName_iff.mp h.1
    have huu : upperChar u = [u] := by
      obtain ⟨v, hv, hv'⟩ := continuesName_iff.mp (continuesName_of_startsName h.1)
      rw [hu] at hv; cases hv
      exact upperChar_of_isUpperName hv'
    rw [Text.upper_cons, hu, List.singleton_append, isName, (Text.upper_of_continuesName h.2).2.1,
      startsName_iff.mpr ⟨u, huu, hn⟩]
    rfl

theorem not_isPlaceholder_of_isName {t : Text} (h : isName t = true) : isPlaceholder t = false := by
  cases t with
  | nil => cases h
  | cons c cs =>
    simp only [isName, Bool.and_eq_true] at h
    have hc : c ≠ '_' := by rintro rfl; exact absurd h.1 (by decide)
    simp [isPlaceholder, placeholderStart, List.isPrefixOf, Ne.symm hc]

/-! ## Command names -/

theorem splitSlash_none {t name : Text} (h : splitSlash t = (name, none)) : name = t ∧ '/' ∉ t := by
  unfold splitSlash at h
  rw [List.span_eq_takeWhile_dropWhile] at h
  split at h
  · next l hl =>
    cases h
    have ht := List.takeWhile_append_dropWhile (p := (· != '/')) (l := t)
    have hd : t.dropWhile (· != '/') = [] := congrArg Prod.snd hl
    have hf : t.takeWhile (· != '/') = name := congrArg Prod.fst hl
    rw [hd, List.append_nil, hf] at ht
    refine ⟨ht, fun hm => ?_⟩
    have := List.dropWhile_eq_nil_iff.mp hd '/' hm
    exact absurd this (by decide)
  · cases h

theorem splitSlash_some {t library name : Text} (h : splitSlash t = (library, some name)) :
    t = library ++ '/' :: name ∧ '/' ∉ library := by
  unfold splitSlash at h
  rw [List.span_eq_takeWhile_dropWhile] at h
  split at h
  · cases h
  · next l d n hl =>
    cases h
    have ht := List.takeWhile_append_dropWhile (p := (· != '/')) (l := t)
    have hd : t.dropWhile (· != '/') = d :: name := congrArg Prod.snd hl
    have hf : t.takeWhile (· != '/') = library := congrArg Prod.fst hl
    have hsep : d = '/' := by
      have := List.head?_dropWhile_not (· != '/') t
      simpa [hd] using this
    rw [hd, hf, hsep] at ht
    refine ⟨ht.symm, fun hm => ?_⟩
    rw [← hf] at hm
    exact absurd (List.all_eq_true.mp List.all_takeWhile _ hm) (by decide)

theorem splitSlash_append {library name : Text} (h : '/' ∉ library) :
    splitSlash (library ++ '/' :: name) = (library, some name) := by
  have hp : ∀ c ∈ library, (c != '/') = true := by
    intro c hc; simp only [bne_iff_ne]; rintro rfl; exact h hc
  simp [splitSlash, List.span_eq_takeWhile_dropWhile, List.takeWhile_append_of_pos hp,
    List.dropWhile_append_of_pos hp]

theorem splitSlash_of_not_mem {t : Text} (h : '/' ∉ t) : splitSlash t = (t, none) := by
  have hp : ∀ c ∈ t, (c != '/') = true := by
    intro c hc; simp only [bne_iff_ne]; rintro rfl; exact h hc
  have hd : t.dropWhile (· != '/') = [] := List.dropWhile_eq_nil_iff.mpr hp
  have ht := List.takeWhile_append_dropWhile (p := (· != '/')) (l := t)
  rw [hd, List.append_nil] at ht
  simp [splitSlash, List.span_eq_takeWhile_dropWhile, hd, ht]

theorem isCommand_cases {t : Text} (h : isCommand t = true) : isName t = true ∨
    ∃ library name, t = library ++ '/' :: name ∧ '/' ∉ library ∧ isName name = true ∧
      (isName library = true ∨ library.upper ∈ symbolicLibraries) := by
  unfold isCommand at h
  split at h
  · next n hn => rw [(splitSlash_none hn).1] at h; exact .inl h
  · next l n hn =>
    obtain ⟨ht, hl⟩ := splitSlash_some hn
    simp only [Bool.and_eq_true, Bool.or_eq_true, List.contains_iff_mem] at h
    exact .inr ⟨l, n, ht, hl, h.1, h.2⟩

theorem slash_not_mem {t : Text} (h : t.all continuesName = true) : '/' ∉ t := by
  intro hm
  exact absurd (List.all_eq_true.mp h _ hm) (by decide)

theorem not_isName_qualified (library name : Text) : isName (library ++ '/' :: name) = false := by
  rw [← Bool.not_eq_true]
  intro h
  exact slash_not_mem (all_of_isName h) (by simp)

theorem isCommand_of_isName {t : Text} (h : isName t = true) : isCommand t = true := by
  rw [isCommand, splitSlash_of_not_mem (slash_not_mem (all_of_isName h))]
  exact h

theorem isCommand_qualified {library name : Text} (hl : '/' ∉ library) (hn : isName name = true)
    (h : isName library = true ∨ library.upper ∈ symbolicLibraries) :
    isCommand (library ++ '/' :: name) = true := by
  rw [isCommand, splitSlash_append hl]
  simpa [hn] using h

theorem upper_symbolic {l : Text} (h : l ∈ symbolicLibraries) : l.upper = l ∧ '/' ∉ l := by
  revert l; decide

theorem upper_slash : upperChar '/' = ['/'] := by decide

theorem upper_qualified (library name : Text) :
    Text.upper (library ++ '/' :: name) = library.upper ++ '/' :: name.upper := by
  rw [Text.upper_append, Text.upper_cons, upper_slash]; rfl

theorem isCommand_upper_qualified {library name : Text} (hn : isName name = true)
    (h : isName library = true ∨ library ∈ symbolicLibraries) :
    isCommand (library ++ '/' :: name) = true := by
  rcases h with h | h
  · exact isCommand_qualified (slash_not_mem (all_of_isName h)) hn (.inl h)
  · have := upper_symbolic h
    exact isCommand_qualified this.2 hn (.inr (by rw [this.1]; exact h))

theorem isCommand_upper {t : Text} (h : isCommand t = true) :
    isCommand t.upper = true ∧ t.upper.upper = t.upper := by
  rcases isCommand_cases h with h | ⟨l, n, rfl, _, hn, hl⟩
  · exact ⟨isCommand_of_isName (isName_upper h), (Text.upper_of_continuesName (all_of_isName h)).2.2⟩
  · have hnu := (Text.upper_of_continuesName (all_of_isName hn)).2.2
    have hlu : l.upper.upper = l.upper ∧ '/' ∉ l.upper ∧
        (isName l.upper = true ∨ l.upper.upper ∈ symbolicLibraries) := by
      rcases hl with hl | hl
      · have := Text.upper_of_continuesName (all_of_isName hl)
        exact ⟨this.2.2, slash_not_mem this.2.1, .inl (isName_upper hl)⟩
      · have := upper_symbolic hl
        exact ⟨this.1, this.2, .inr (by rw [this.1]; exact hl)⟩
    rw [upper_qualified, upper_qualified, hlu.1, hnu]
    exact ⟨isCommand_qualified hlu.2.1 (isName_upper hn) hlu.2.2, rfl⟩

theorem upper_cases {t : Text} (h : isCommand t = true) (hn : isName t = false) :
    ∃ library name, t.upper = library ++ '/' :: name ∧ isName name = true ∧
      (isName library = true ∨ library ∈ symbolicLibraries) := by
  rcases isCommand_cases h with h | ⟨l, n, rfl, _, hname, hl⟩
  · rw [h] at hn; cases hn
  · exact ⟨_, _, upper_qualified l n, isName_upper hname, hl.imp isName_upper id⟩

theorem isUpperName_of_mem_upper {t : Text} (h : isName t = true) {u : Char} (hu : u ∈ t.upper) :
    isUpperName u = true := by
  obtain ⟨c, hc, hu⟩ := List.mem_flatMap.mp hu
  obtain ⟨v, hv, hn⟩ := continuesName_iff.mp (List.all_eq_true.mp (all_of_isName h) c hc)
  rw [hv, List.mem_singleton] at hu
  rw [hu]; exact hn

theorem upper_chars_of_isCommand {t : Text} (h : isCommand t = true) {u : Char} (hu : u ∈ t.upper) :
    isUpperName u = true ∨ u = '/' ∨ u = '*' := by
  rcases isCommand_cases h with h | ⟨l, n, rfl, -, hn, hl⟩
  · exact .inl (isUpperName_of_mem_upper h hu)
  · rw [upper_qualified, List.mem_append, List.mem_cons] at hu
    rcases hu with hu | hu | hu
    · rcases hl with hl | hl
      · exact .inl (isUpperName_of_mem_upper hl hu)
      · have hall : symbolicLibraries.all (·.all fun u => isUpperName u || u == '*') = true := by decide
        have := List.all_eq_true.mp (List.all_eq_true.mp hall _ hl) u hu
        rw [Bool.or_eq_true, beq_iff_eq] at this
        exact this.imp id .inr
    · exact .inr (.inl hu)
    · exact .inl (isUpperName_of_mem_upper hn hu)

theorem not_mem_of_isCommand {t : Text} (h : isCommand t = true) {c : Char} (hu : upperChar c = [c])
    (hn : isUpperName c = false) (hs : c ≠ '/' ∧ c ≠ '*') : c ∉ t := by
  intro hm
  rcases upper_chars_of_isCommand h (Text.mem_upper_of_mem hu hm) with h | h | h
  · rw [hn] at h; cases h
  · exact hs.1 h
  · exact hs.2 h

theorem isOrdinary_of_isCommand {t : Text} (h : isCommand t = true) : t.all isOrdinary = true := by
  rw [List.all_eq_true]
  intro c hc
  rw [← Bool.not_eq_false]
  intro ho
  refine not_mem_of_isCommand h ?_ ?_ ?_ hc
  all_goals rcases isOrdinary_eq_false_iff.mp ho with rfl | rfl | rfl | rfl | rfl | rfl <;> decide

theorem ne_nil_of_isCommand {t : Text} (h : isCommand t = true) : t ≠ [] := by
  rintro rfl; exact absurd h (by decide)

end Word

/-! ## The ends of ordinary words -/

theorem marksBefore_ordinary {w : Text} (h : w.all isOrdinary = true) (next : Option Char) (n : Nesting)
    (hm : n.mode = .outside) (i : Nat) :
    (marksBefore next n i w).all Mark.inWord = true ∧ n.after next w = n := by
  induction w generalizing i with
  | nil => exact ⟨rfl, rfl⟩
  | cons c cs ih =>
    rw [List.all_cons, Bool.and_eq_true] at h
    have hc := isOrdinary_eq_false_iff (c := c)
    rw [h.1] at hc
    have hs : ∀ a, n.step c a = (.plain, n) := by
      intro a; simp only [Nesting.step, hm]; grind
    rw [marksBefore, Nesting.after, hs, List.all_cons, (ih h.2 _).1, (ih h.2 i).2]
    have hb : isBlank c = false := by
      rw [isBlank]; grind
    simp [Mark.inWord, hb]

theorem Token.wordLength_ordinary {w rest : Text} (h : w.all isOrdinary = true)
    (hr : startsDelimited rest = true) : wordLength (w ++ rest) = w.length := by
  rw [wordLength_append_iff]
  obtain ⟨ha, hn⟩ := marksBefore_ordinary h rest.head? .start rfl 0
  exact ⟨ha, .inr ⟨by rw [hn]; rfl, hr⟩⟩

end ControlLanguage
