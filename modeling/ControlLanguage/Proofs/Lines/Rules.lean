import ControlLanguage.Lines.Placed

/-!
# The rules of placing

A unit is placed by four rules: what is left of it fits, or it is cut at a
break point, or it goes to the next line, or it is cut by force behind the
indent. Every placement follows the rules, so what each of them keeps holds
of every placement.
-/

namespace ControlLanguage

theorem lastBreak?_mem {breaks : List Nat} {length start p : Nat} {room : Int}
    (h : lastBreak? breaks length start room = some p) : p ∈ breaks :=
  (List.mem_filter.mp (List.mem_of_getLast? h)).1

theorem lastBreak?_eq_none_iff {breaks : List Nat} {length start : Nat} {room : Int} :
    lastBreak? breaks length start room = none ↔
      ∀ p ∈ breaks, start < p → p < length → start + room < p := by
  rw [lastBreak?, List.getLast?_eq_none_iff, List.filter_eq_nil_iff]
  refine forall₂_congr fun p _ => ?_
  simp only [Bool.and_eq_true, decide_eq_true_eq, not_and, Int.not_le, and_imp]

namespace Format

def room (f : Format) (line : Text) : Int := f.rightMargin - line.length - 1

theorem one_le_room_indent (f : Format) : 1 ≤ f.room f.indent := by
  have := f.indent_fits
  rw [room, length_indent]
  simp only [commentRoom] at this; omega

/-- How a unit is placed from `start` on behind a line. -/
inductive Puts (f : Format) (breaks : List Nat) (unit : Text) (more : Bool) : Text → Nat → Logged Placed → Prop
  | fits {line start} : f.hasRoom (line ++ unit.drop start) more = true →
      Puts f breaks unit more line start ⟨[], [], line ++ unit.drop start⟩
  | cut {line start point p} : f.hasRoom (line ++ unit.drop start) more = false →
      lastBreak? breaks unit.length start (f.room line) = some point →
      Puts f breaks unit more f.indent point p →
      Puts f breaks unit more line start
        ⟨p.notes, (line ++ unit.extract start point ++ [f.continuation]) :: p.value.lines, p.value.line⟩
  | next {line start p} : f.hasRoom (line ++ unit.drop start) more = false →
      lastBreak? breaks unit.length start (f.room line) = none → line ≠ f.indent →
      Puts f breaks unit more f.indent start p →
      Puts f breaks unit more line start ⟨p.notes, f.endLine line :: p.value.lines, p.value.line⟩
  | forced {start point p} : f.hasRoom (f.indent ++ unit.drop start) more = false →
      lastBreak? breaks unit.length start (f.room f.indent) = none →
      point = forcedCut unit start (f.room f.indent) →
      Puts f breaks unit more f.indent point p →
      Puts f breaks unit more f.indent start
        ⟨.unitCut unit f.indentColumn f.rightMargin :: p.notes,
          (f.indent ++ unit.extract start point ++ [f.continuation]) :: p.value.lines, p.value.line⟩

theorem puts_putFrom (f : Format) (breaks : List Nat) (unit : Text) (more : Bool) (line : Text) (start : Nat) :
    Puts f breaks unit more line start (f.putFrom breaks unit more line start) := by
  -- the notes of the rules are those of the program up to the empty ones of `pure`
  fun_induction f.putFrom breaks unit more line start with
  | case1 line start rest hroom => exact .fits hroom
  | case2 line start rest hroom room point hbreak ih =>
    have h := Puts.cut (by simpa using hroom) hbreak ih
    rwa [← List.append_nil (Logged.notes _)] at h
  | case3 start rest hroom room hbreak point ih =>
    have h := Puts.forced (by simpa using hroom) hbreak rfl ih
    rwa [← List.append_nil (Logged.notes _)] at h
  | case4 line start rest hroom room hbreak hfresh ih =>
    have h := Puts.next (by simpa using hroom) hbreak hfresh ih
    rwa [← List.append_nil (Logged.notes _)] at h

section
variable {f : Format} {breaks : List Nat} {unit line : Text} {more : Bool} {start : Nat} {p : Logged Placed}

theorem hasRoom_iff {t : Text} : f.hasRoom t more = true ↔ t.length + reserve more ≤ f.rightMargin :=
  decide_eq_true_iff

theorem forcedCut_of_not_hasRoom (h : f.hasRoom (f.indent ++ unit.drop start) more = false) :
    start < forcedCut unit start (f.room f.indent) ∧ forcedCut unit start (f.room f.indent) < unit.length :=
  forcedCut_bounds _ (lt_length_of_not_hasRoom h)

theorem Puts.hasRoom (h : Puts f breaks unit more line start p) : f.hasRoom p.value.line more = true := by
  induction h with
  | fits hroom => exact hroom
  | cut _ _ _ ih => exact ih
  | next _ _ _ _ ih => exact ih
  | forced _ _ _ _ ih => exact ih

end

end Format

end ControlLanguage
