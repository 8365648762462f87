import ControlLanguage.Command.Text
import ControlLanguage.Lines.Comment
import ControlLanguage.Lines.Unit

/-!
# The lines of a command

The label and the name of a command stand in their columns on the first
line. The units of the command follow, and then its comment. A line that
goes on ends with the continuation character; the line after it starts with
the indent.
-/

namespace ControlLanguage

namespace Format

/-- Literals of at least this length may be cut. -/
def longLiteral : Int := 50

/-- The label and the name of a command in their columns. -/
def headLine (f : Format) (c : Command) : Text :=
  let name := f.letterCase.apply c.name
  match Call.part? c.label with
  | none => Text.blanks (f.commandColumn - 1) ++ name
  | some label =>
    let labelled := Text.blanks (f.labelColumn - 1) ++ f.letterCase.apply label ++ [':']
    labelled ++ Text.blanks (max (f.commandColumn - 1 - labelled.length) 1) ++ name

/-- The blanks between the first line and the first unit. -/
def headGap (f : Format) (line : Text) : Text :=
  Text.blanks (max (f.keywordColumn - 1 - line.length) 1)

def layout (f : Format) (c : Command) (threshold : Int := longLiteral) : Logged (List Text) := do
  let first := f.headLine c
  let comment := Call.part? c.comment
  let units := c.units.map f.letterCase.apply
  let p ← f.putAll threshold comment.isSome first (f.headGap first) units
  match comment with
  | none => return p.lines ++ [p.line]
  | some comment =>
    let q ← f.putComment p.line comment
    return p.lines ++ q.lines ++ [q.line]

end Format

end ControlLanguage
