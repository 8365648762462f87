import ControlLanguage.Nesting.Basic

/-!
# Finding places outside literals

The end of a literal, the parenthesis that closes another, and the first
place outside literals where a text occurs.
-/

namespace ControlLanguage

/-- Whether the character at an offset belongs to a literal. -/
def inLiteralAt (text : Text) (i : Nat) : Bool := (marks text)[i]?.any (·.role.inLiteral)

/-- Just past the literal that opens at `start`, and whether it is closed: an open literal runs to
the end of the text. -/
def endOfLiteral (text : Text) (start : Nat := 0) : Nat × Bool :=
  match (marks text start).find? (·.role == .quoteClose) with
  | some m => (m.index + 1, true)
  | none => (text.length, false)

def closingParen? (text : Text) (start : Nat := 0) : Option Nat :=
  if text[start]? = some '(' then
    ((marks text start).find? fun m => m.role == .parenClose && m.depth == 0).map (·.index)
  else none

/-- The first place from `start` on where `needle` begins outside literals. -/
def findOutside? (needle text : Text) (start : Nat := 0) : Option Nat :=
  ((marks text start).find? fun m =>
    !m.role.inLiteral && needle.isPrefixOf (text.drop m.index)).map (·.index)

/-- Drops the white space around a text and then one pair of parentheses, if they enclose all of
it. -/
def dropEnclosing (text : Text) : Text :=
  let t := Text.trim text
  if t.head? = some '(' ∧ closingParen? t = some (t.length - 1) then
    Text.trim (t.drop 1).dropLast
  else t

end ControlLanguage
