import ControlLanguage.Format.Basic
import ControlLanguage.Note

/-!
# Placing a unit

Units are put on lines one after the other. A unit that does not fit may be
cut inside a long literal, after one of its blanks; otherwise it goes to the
next line. Only a unit that is too long for a line of its own is cut
anywhere.
-/

namespace ControlLanguage

/-- Finished lines, and the line that is being written. -/
structure Placed where
  lines : List Text
  line : Text

namespace Format

def continuationRoom : Nat := 2

/-- What a line needs at its end if more has to follow. -/
def reserve (more : Bool) : Nat := if more then continuationRoom else 0

/-- Whether a line has room for a text and what has to stand behind it. -/
def hasRoom (f : Format) (t : Text) (more : Bool) : Bool := t.length + reserve more ≤ f.rightMargin

def endLine (f : Format) (line : Text) : Text := Text.trimRight line ++ [' ', f.continuation]

end Format

/-! ## Where a unit may be cut -/

/-- The literals in single quotes of a unit, from the opening quote to the closing one or
to the end. `start` is where the open one begins. -/
def literalSpans (length : Nat) (start : Option Nat) : List Mark → List (Nat × Nat)
  | [] => start.toList.map fun b => (b, length)
  | s :: ss =>
    if s.role = .quoteOpen ∧ s.char = '\'' then literalSpans length (some s.index) ss
    else
      match s.role, start with
      | .quoteClose, some b => (b, s.index) :: literalSpans length none ss
      | _, start => literalSpans length start ss

/-- The offsets at which a unit may be cut: inside a literal of at least `threshold` characters,
after a blank and not in front of one. -/
def breakPoints (threshold : Int) (unit : Text) : List Nat :=
  (literalSpans unit.length none (marks unit)).flatMap fun (b, e) =>
    if (e : Int) - b + 1 < threshold then []
    else
      (List.range' (b + 2) (e - (b + 2))).filter fun p =>
        unit[p - 1]? == some ' ' && unit[p]? != some ' '

/-- The last break point after `start` that leaves at most `room` characters before it. -/
def lastBreak? (breaks : List Nat) (length start : Nat) (room : Int) : Option Nat :=
  (breaks.filter fun p => start < p && p < length && (p : Int) ≤ start + room).getLast?

theorem lastBreak?_bounds {breaks : List Nat} {length start p : Nat} {room : Int}
    (h : lastBreak? breaks length start room = some p) :
    start < p ∧ p < length ∧ (p : Int) ≤ start + room := by
  have hm := List.mem_of_getLast? h
  simpa [and_assoc] using (List.mem_filter.mp hm).2

/-- Goes back from `p` over blanks, but not below `least`. -/
def backOverBlanks (unit : Text) (least : Nat) : (p : Nat) → Nat
  | 0 => 0
  | p + 1 =>
    if least < p + 1 ∧ unit[p + 1]? = some ' ' then backOverBlanks unit least p else p + 1

theorem backOverBlanks_bounds (unit : Text) (least p : Nat) (h : least ≤ p) :
    least ≤ backOverBlanks unit least p ∧ backOverBlanks unit least p ≤ p := by
  induction p with
  | zero => exact ⟨h, Nat.le_refl _⟩
  | succ p ih =>
    unfold backOverBlanks
    split
    · next hc =>
      have := ih (by omega)
      omega
    · exact ⟨h, Nat.le_refl _⟩

/-- Where a unit is cut that fits nowhere: not in front of a blank, if that can be. -/
def forcedCut (unit : Text) (start : Nat) (room : Int) : Nat :=
  backOverBlanks unit (start + 1) (min (start + (max room 1).toNat) (unit.length - 1))

theorem forcedCut_bounds {unit : Text} {start : Nat} (room : Int) (h : start + 1 < unit.length) :
    start < forcedCut unit start room ∧ forcedCut unit start room < unit.length := by
  have := backOverBlanks_bounds unit (start + 1)
    (min (start + (max room 1).toNat) (unit.length - 1)) (by omega)
  unfold forcedCut
  omega

/-! ## Placing -/

namespace Format

/-- What is left of a unit that does not fit behind the indent has two characters or more. -/
theorem lt_length_of_not_hasRoom {f : Format} {unit : Text} {start : Nat} {more : Bool}
    (h : f.hasRoom (f.indent ++ unit.drop start) more = false) : start + 1 < unit.length := by
  have := f.indent_fits
  simp only [hasRoom, decide_eq_false_iff_not, List.length_append, length_indent, List.length_drop,
    commentRoom, reserve, continuationRoom] at h this
  split at h <;> omega

/-- Places the unit from `start` on behind `line`. -/
def putFrom (f : Format) (breaks : List Nat) (unit : Text) (more : Bool) (line : Text)
    (start : Nat) : Logged Placed :=
  let rest := unit.drop start
  if _room : f.hasRoom (line ++ rest) more then pure ⟨[], line ++ rest⟩
  else
    let room : Int := f.rightMargin - line.length - 1
    match _break : lastBreak? breaks unit.length start room with
    | some point => do
      let p ← putFrom f breaks unit more f.indent point
      return { p with lines := (line ++ rest.take (point - start) ++ [f.continuation]) :: p.lines }
    | none =>
      if _fresh : line = f.indent then do
        let point := forcedCut unit start room
        Logged.note (.unitCut unit f.indentColumn f.rightMargin)
        let p ← putFrom f breaks unit more f.indent point
        return { p with lines := (line ++ rest.take (point - start) ++ [f.continuation]) :: p.lines }
      else do
        let p ← putFrom f breaks unit more f.indent start
        return { p with lines := f.endLine line :: p.lines }
termination_by (unit.length - start, if line = f.indent then 0 else 1)
decreasing_by
  · have := lastBreak?_bounds _break
    exact Prod.Lex.left _ _ (by omega)
  · subst _fresh
    have hl := lt_length_of_not_hasRoom (Bool.not_eq_true _ ▸ _room)
    have := forcedCut_bounds ((f.rightMargin : Int) - f.indent.length - 1) hl
    exact Prod.Lex.left _ _ (by omega)
  · simp only [↓reduceIte, _fresh]
    exact Prod.Lex.right _ (by omega)

def put (f : Format) (threshold : Int) (more : Bool) (line separator unit : Text) :
    Logged Placed :=
  f.putFrom (breakPoints threshold unit) unit more (line ++ separator) 0

/-- Places units one after the other, the first behind `separator` and the others behind a blank.
`comment` holds if a comment has to follow the last one. -/
def putAll (f : Format) (threshold : Int) (comment : Bool) (line separator : Text) :
    List Text → Logged Placed
  | [] => pure ⟨[], line⟩
  | u :: us => do
    let p ← f.put threshold (!us.isEmpty || comment) line separator u
    let q ← f.putAll threshold comment p.line [' '] us
    return ⟨p.lines ++ q.lines, q.line⟩

end Format

end ControlLanguage
