import ControlLanguage.Text.Basic

/-!
# Literals and parentheses

Which characters of a text belong to a quoted literal and how deep each
parenthesis lies is decided here, in one pass from left to right. A literal
in single quotes runs to the next quote that is not doubled; a literal in
double quotes runs to the next double quote. Parentheses inside a literal do
not count.
-/

namespace ControlLanguage

/-- The part that one character plays. -/
inductive Role
  | plain | quoteOpen | quoted | quoteClose | parenOpen | parenClose
  deriving DecidableEq, Repr

namespace Role

def inLiteral : Role → Bool
  | quoteOpen | quoted | quoteClose => true
  | plain | parenOpen | parenClose => false

end Role

/-- Where a place in a text lies: outside literals, in a literal in single quotes (`escaped` just
after the first quote of a doubled one), or in a literal in double quotes. -/
inductive Mode
  | outside
  | single (escaped : Bool)
  | double
  deriving DecidableEq, Repr

def Mode.quote? : Mode → Option Char
  | outside => none
  | single _ => some '\''
  | double => some '"'

/-- What is open at a place in a text. `depth` counts the parentheses; it is negative after one
that closes none. -/
structure Nesting where
  mode : Mode
  depth : Int
  deriving DecidableEq, Repr

namespace Nesting

def start : Nesting := ⟨.outside, 0⟩

/-- The role of `c`, which is followed by `next`, and what is open after it. -/
def step (n : Nesting) (c : Char) (next : Option Char) : Role × Nesting :=
  match n.mode with
  | .single true => (.quoted, { n with mode := .single false })
  | .single false =>
    if c = '\'' then
      if next = some '\'' then (.quoted, { n with mode := .single true })
      else (.quoteClose, { n with mode := .outside })
    else (.quoted, n)
  | .double => if c = '"' then (.quoteClose, { n with mode := .outside }) else (.quoted, n)
  | .outside =>
    if c = '\'' then (.quoteOpen, { n with mode := .single false })
    else if c = '"' then (.quoteOpen, { n with mode := .double })
    else if c = '(' then (.parenOpen, { n with depth := n.depth + 1 })
    else if c = ')' then (.parenClose, { n with depth := n.depth - 1 })
    else (.plain, n)

/-- A step over a text that need not be one character: any other text is as good as a letter. -/
def stepText (n : Nesting) (unit lookahead : Text) : Role × Nesting :=
  let single : Text → Option Char
    | [c] => some c
    | _ => none
  n.step ((single unit).getD 'A') (single lookahead)

end Nesting

/-- One character of a text with its role. Both parentheses of a pair have the depth of the text
around the pair. -/
structure Mark where
  index : Nat
  char : Char
  role : Role
  depth : Int
  deriving DecidableEq, Repr

/-- The marks of a text that starts at offset `i` inside of what is open in `n`. -/
def marksFrom (n : Nesting) (i : Nat) : Text → List Mark
  | [] => []
  | c :: cs =>
    let (role, n') := n.step c cs.head?
    ⟨i, c, role, if role = .parenOpen then n.depth else n'.depth⟩ :: marksFrom n' (i + 1) cs

/-- The marks of a text from `start` on, which has to lie outside literals. -/
def marks (text : Text) (start : Nat := 0) : List Mark :=
  marksFrom .start start (text.drop start)

/-- A blank or tab outside literals and parentheses. -/
def Mark.isTopBlank (m : Mark) : Bool := m.role == .plain && m.depth == 0 && isBlank m.char

theorem length_marksFrom (n : Nesting) (i : Nat) (t : Text) : (marksFrom n i t).length = t.length := by
  induction t generalizing n i with
  | nil => rfl
  | cons c cs ih => simp [marksFrom, ih]

theorem map_char_marksFrom (n : Nesting) (i : Nat) (t : Text) : (marksFrom n i t).map (·.char) = t := by
  induction t generalizing n i with
  | nil => rfl
  | cons c cs ih => simp [marksFrom, ih]

end ControlLanguage
