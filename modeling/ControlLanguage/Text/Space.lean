/-!
# White space

Two notions of white space are kept apart. `isSpace` is the wide one: the
Unicode property together with the four information separators; texts are
trimmed and divided into words by it. `isBlank` is the narrow one that
separates the parts of a command: only the blank and the tab.
-/

namespace ControlLanguage

/-- Unicode white space, with U+001C to U+001F. -/
def isSpace (c : Char) : Bool :=
  let n := c.toNat
  (9 ≤ n && n ≤ 13) || (0x1C ≤ n && n ≤ 0x20) || n == 0x85 || n == 0xA0 || n == 0x1680 ||
    (0x2000 ≤ n && n ≤ 0x200A) || n == 0x2028 || n == 0x2029 || n == 0x202F || n == 0x205F ||
    n == 0x3000

/-- The characters that separate the parts of a command. -/
def isBlank (c : Char) : Bool := c == ' ' || c == '\t'

theorem isSpace_of_isBlank {c : Char} (h : isBlank c = true) : isSpace c = true := by
  simp only [isBlank, Bool.or_eq_true, beq_iff_eq] at h
  cases h with
  | inl h => subst h; decide
  | inr h => subst h; decide

end ControlLanguage
