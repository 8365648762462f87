import ControlLanguage.Lines.Placed
import ControlLanguage.Proofs.Token.Ends

/-!
# Joining lines

The lines of a command are one text that has been continued. `Writes` says
of lines what they add to the text in front of them; it holds of each way in
which a unit is placed, and it is closed under placing one unit after the
other.
-/

namespace ControlLanguage

def dropBlanks (t : Text) : Text := t.dropWhile (· == ' ')

def unindent : List Text → List Text
  | [] => []
  | line :: lines => line :: lines.map dropBlanks

/-- The text that is continued over some lines. The last character of every line but the last is
not part of it, and neither are the blanks at the start of every line but the first. -/
def joinLines (lines : List Text) : Text :=
  (unindent (lines.dropLast.map List.dropLast ++ lines.getLast?.toList)).flatten

theorem joinLines_singleton (line : Text) : joinLines [line] = line := List.append_nil line

theorem unindent_concat {lines : List Text} (h : lines ≠ []) (line : Text) :
    unindent (lines ++ [line]) = unindent lines ++ [dropBlanks line] := by
  cases lines with
  | nil => exact absurd rfl h
  | cons l ls => simp [unindent]

theorem joinLines_concat (lines : List Text) (line : Text) :
    joinLines (lines ++ [line]) = (unindent (lines.map List.dropLast ++ [line])).flatten := by
  rw [joinLines, List.dropLast_concat, List.getLast?_concat]; rfl

theorem joinLines_continue (lines : List Text) (a b : Text) (c : Char) :
    joinLines (lines ++ [a ++ [c]] ++ [b]) = joinLines (lines ++ [a]) ++ dropBlanks b := by
  rw [joinLines_concat, joinLines_concat, unindent_concat (by simp)]
  simp

theorem joinLines_append {a b : Text} (h : dropBlanks (a ++ b) = dropBlanks a ++ b) (lines : List Text) :
    joinLines (lines ++ [a ++ b]) = joinLines (lines ++ [a]) ++ b := by
  rw [joinLines_concat, joinLines_concat]
  cases lines with
  | nil => simp [unindent]
  | cons l ls => rw [unindent_concat (by simp), unindent_concat (by simp), h]; simp

theorem dropBlanks_append_of_mem {a : Text} {c : Char} (h : c ∈ a) (hc : c ≠ ' ') (b : Text) :
    dropBlanks (a ++ b) = dropBlanks a ++ b := by
  rw [dropBlanks, dropBlanks, List.dropWhile_append, if_neg]
  intro he
  have := List.dropWhile_eq_nil_iff.mp (List.isEmpty_iff.mp he) c h
  exact hc (by simpa using this)

theorem dropBlanks_append_of_closes {a : Text} (h : Closes a) (b : Text) :
    dropBlanks (a ++ b) = dropBlanks a ++ b := by
  obtain ⟨cs, c, rfl, hc⟩ := h
  refine dropBlanks_append_of_mem (c := c) (by simp) ?_ b
  rintro rfl
  exact absurd hc (by decide)

theorem dropBlanks_append_of_head {b : Text} (h : b.head? ≠ some ' ') (a : Text) :
    dropBlanks (a ++ b) = dropBlanks a ++ b := by
  rw [dropBlanks, dropBlanks, List.dropWhile_append]
  split
  · next he =>
    rw [List.isEmpty_iff.mp he, List.nil_append]
    cases b with
    | nil => rfl
    | cons c cs => exact List.dropWhile_cons_of_neg (by simpa using h)
  · rfl

theorem dropBlanks_blanks (n : Nat) : dropBlanks (Text.blanks n) = [] := by
  rw [dropBlanks, List.dropWhile_eq_nil_iff]
  intro c hc
  rw [List.eq_of_mem_replicate hc]; rfl

/-! ## What a placement writes -/

/-- The placed lines, behind any others and in place of `line`, add `text` to what is written. -/
structure Writes (f : Format) (line text : Text) (p : Placed) : Prop where
  continued : ∀ l ∈ p.lines, l.getLast? = some f.continuation
  joined (lines : List Text) : joinLines (lines ++ (p.lines ++ [p.line])) = joinLines (lines ++ [line]) ++ text
  last : ∀ c, text.getLast? = some c → p.line.getLast? = some c

namespace Writes

variable {f : Format} {line a b : Text} {p q : Placed}

theorem trans (hp : Writes f line a p) (hq : Writes f p.line b q) (hb : b ≠ []) :
    Writes f line (a ++ b) ⟨p.lines ++ q.lines, q.line⟩ := by
  refine ⟨fun l hl => ?_, fun lines => ?_, fun c hc => hq.last c ?_⟩
  · rcases List.mem_append.mp hl with hl | hl
    · exact hp.continued l hl
    · exact hq.continued l hl
  · rw [List.append_assoc, ← List.append_assoc lines, hq.joined, List.append_assoc, hp.joined, List.append_assoc]
  · rw [List.getLast?_append, List.getLast?_eq_some_getLast hb] at hc
    rw [← hc, List.getLast?_eq_some_getLast hb]; rfl

theorem here (h : dropBlanks (line ++ a) = dropBlanks line ++ a) : Writes f line a ⟨[], line ++ a⟩ := by
  refine ⟨by simp, fun lines => ?_, fun c hc => ?_⟩
  · rw [List.nil_append, joinLines_append h]
  · rw [List.getLast?_append, hc]; rfl

theorem next (h : dropBlanks (line ++ a) = dropBlanks line ++ a) (hp : Writes f f.indent b p) (hb : b ≠ []) :
    Writes f line (a ++ b) ⟨(line ++ a ++ [f.continuation]) :: p.lines, p.line⟩ := by
  refine ⟨fun l hl => ?_, fun lines => ?_, fun c hc => hp.last c ?_⟩
  · rcases List.mem_cons.mp hl with rfl | hl
    · exact List.getLast?_concat
    · exact hp.continued l hl
  · have hj := hp.joined (lines ++ [line ++ a ++ [f.continuation]])
    rw [joinLines_continue, Format.indent, dropBlanks_blanks, List.append_nil, joinLines_append h,
      List.append_assoc] at hj
    exact hj.trans (List.append_assoc ..)
  · rw [List.getLast?_append, List.getLast?_eq_some_getLast hb] at hc
    rw [← hc, List.getLast?_eq_some_getLast hb]; rfl

theorem nothing (f : Format) (line : Text) : Writes f line [] ⟨[], line⟩ := by
  refine ⟨by simp, fun lines => ?_, by simp⟩
  rw [List.append_nil]; rfl

theorem closes (h : Writes f line a p) (ha : Closes a) : Closes p.line := by
  obtain ⟨cs, c, rfl, hc⟩ := ha
  obtain ⟨ds, hds⟩ := List.getLast?_eq_some_iff.mp (h.last c List.getLast?_concat)
  exact ⟨ds, c, hds, hc⟩

theorem joinLines_eq (h : Writes f line a p) : joinLines (p.lines ++ [p.line]) = line ++ a := by
  have := h.joined []
  rwa [List.nil_append, List.nil_append, joinLines_singleton] at this

end Writes

end ControlLanguage
