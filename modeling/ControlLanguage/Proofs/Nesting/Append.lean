import ControlLanguage.Nesting.Search

/-!
# Reading a text in two parts

`marksBefore` are the marks of the first part and `Nesting.after` is what is
open behind it. Both see of the second part its first character only, and of
that only whether it is a single quote: nothing else can change what the
last character of the first part means.
-/

namespace ControlLanguage

def Nesting.depthAt (n : Nesting) (c : Char) (next : Option Char) : Int :=
  if (n.step c next).1 = .parenOpen then n.depth else (n.step c next).2.depth

/-- The marks of a text that `next` follows. -/
def marksBefore (next : Option Char) (n : Nesting) (i : Nat) : Text → List Mark
  | [] => []
  | c :: cs =>
    ⟨i, c, (n.step c (cs.head?.or next)).1, n.depthAt c (cs.head?.or next)⟩ ::
      marksBefore next (n.step c (cs.head?.or next)).2 (i + 1) cs

/-- What is open after a text that `next` follows. -/
def Nesting.after (next : Option Char) (n : Nesting) : Text → Nesting
  | [] => n
  | c :: cs => after next (n.step c (cs.head?.or next)).2 cs

theorem marks_eq (t : Text) : marks t = marksFrom .start 0 t := rfl

theorem marksFrom_cons (n : Nesting) (i : Nat) (c : Char) (cs : Text) :
    marksFrom n i (c :: cs) =
      ⟨i, c, (n.step c cs.head?).1, n.depthAt c cs.head?⟩ ::
        marksFrom (n.step c cs.head?).2 (i + 1) cs := rfl

theorem marksFrom_append (n : Nesting) (i : Nat) (s t : Text) :
    marksFrom n i (s ++ t) =
      marksBefore t.head? n i s ++ marksFrom (n.after t.head? s) (i + s.length) t := by
  induction s generalizing n i with
  | nil => rfl
  | cons c cs ih =>
    rw [List.cons_append, marksFrom_cons, List.head?_append, ih]
    simp only [marksBefore, Nesting.after, List.cons_append, List.length_cons]
    rw [Nat.add_right_comm, Nat.add_assoc]

theorem marksFrom_eq_marksBefore (n : Nesting) (i : Nat) (t : Text) : marksFrom n i t = marksBefore none n i t := by
  have h := marksFrom_append n i t []
  rwa [List.append_nil, marksFrom, List.append_nil] at h

theorem length_marksBefore (next : Option Char) (n : Nesting) (i : Nat) (s : Text) :
    (marksBefore next n i s).length = s.length := by
  induction s generalizing n i with
  | nil => rfl
  | cons c cs ih => simp [marksBefore, ih]

theorem marksBefore_append (next : Option Char) (n : Nesting) (i : Nat) (s t : Text) :
    marksBefore next n i (s ++ t) = marksBefore (t.head?.or next) n i s ++
      marksBefore next (n.after (t.head?.or next) s) (i + s.length) t := by
  induction s generalizing n i with
  | nil => rfl
  | cons c cs ih =>
    rw [List.cons_append, marksBefore, List.head?_append, Option.or_assoc, ih]
    simp only [marksBefore, Nesting.after, List.cons_append, List.length_cons]
    rw [Nat.add_right_comm, Nat.add_assoc]

theorem marksBefore_snoc (next : Option Char) (n : Nesting) (i : Nat) (s : Text) (c : Char) :
    marksBefore next n i (s ++ [c]) =
      marksBefore (some c) n i s ++ marksBefore next (n.after (some c) s) (i + s.length) [c] :=
  marksBefore_append next n i s [c]

namespace Nesting

theorem after_append (next : Option Char) (n : Nesting) (s t : Text) :
    n.after next (s ++ t) = (n.after (t.head?.or next) s).after next t := by
  induction s generalizing n with
  | nil => rfl
  | cons c cs ih => rw [List.cons_append, after, List.head?_append, Option.or_assoc, ih]; rfl

theorem after_snoc (next : Option Char) (n : Nesting) (s : Text) (c : Char) :
    n.after next (s ++ [c]) = ((n.after (some c) s).step c next).2 :=
  after_append next n s [c]

/-- Only a single quote can change the meaning of the character before it. -/
theorem step_congr {a b : Option Char} (h : a = some '\'' ↔ b = some '\'') (n : Nesting) (c : Char) :
    n.step c a = n.step c b := by
  unfold step
  split
  · rfl
  · by_cases ha : a = some '\''
    · simp [ha, h.mp ha]
    · simp [ha, mt h.mpr ha]
  · rfl
  · rfl

theorem or_eq_quote {a b : Option Char} (h : a = some '\'' ↔ b = some '\'') (d : Option Char) :
    d.or a = some '\'' ↔ d.or b = some '\'' := by
  cases d with
  | none => simpa using h
  | some _ => simp

theorem after_congr {a b : Option Char} (h : a = some '\'' ↔ b = some '\'') (n : Nesting) (s : Text) :
    n.after a s = n.after b s := by
  induction s generalizing n with
  | nil => rfl
  | cons c cs ih => rw [after, after, step_congr (or_eq_quote h _), ih]

end Nesting

theorem marksBefore_congr {a b : Option Char} (h : a = some '\'' ↔ b = some '\'') (n : Nesting)
    (i : Nat) (s : Text) : marksBefore a n i s = marksBefore b n i s := by
  induction s generalizing n i with
  | nil => rfl
  | cons c cs ih =>
    rw [marksBefore, marksBefore, Nesting.depthAt, Nesting.depthAt,
      Nesting.step_congr (Nesting.or_eq_quote h _), ih]

end ControlLanguage
