import ControlLanguage.Nesting.Basic
import ControlLanguage.Text.Case
import ControlLanguage.Text.Display

/-!
# Formats

A format says in which columns a command is written and what a line that
goes on ends with. Columns count from 1, and column 0 is the first one too.
A format leaves room for seven characters after the indent: the two comment
marks, their blanks and one character of the comment.
-/

namespace ControlLanguage

/-- What becomes of letters outside literals. -/
inductive LetterCase
  | upper | lower | asWritten
  deriving DecidableEq, Repr

namespace LetterCase

def name : LetterCase → Text
  | upper => "*UPPER".toList
  | lower => "*LOWER".toList
  | asWritten => "*NONE".toList

def ofName? (name : Text) : Option LetterCase :=
  [upper, lower, asWritten].find? (·.name == name)

def apply (l : LetterCase) (t : Text) : Text :=
  let change (f : Char → Text) : Text :=
    (marks t).flatMap fun s => if s.role.inLiteral then [s.char] else f s.char
  match l with
  | upper => change upperChar
  | lower => change lowerChar
  | asWritten => t

/-- The case that an option names, in any letter case and with white space around it. -/
def ofOption? (option : Text) : Option LetterCase := ofName? (Text.upper (Text.trim option))

def unknownMessage (option : Text) : String :=
  "Unknown case option: " ++ String.ofList option.display

end LetterCase

def commentRoom : Nat := 7

structure Format where
  labelColumn : Nat
  commandColumn : Nat
  /-- Where the first parameter starts; 0 puts it one blank after the command name. -/
  keywordColumn : Nat
  indentColumn : Nat
  rightMargin : Nat
  continuation : Char
  letterCase : LetterCase := .asWritten
  indent_fits : indentColumn - 1 + commentRoom ≤ rightMargin
  command_fits : commandColumn < rightMargin

namespace Format

/-- The blanks that a line starts with when it goes on from the line before. -/
def indent (f : Format) : Text := Text.blanks (f.indentColumn - 1)

theorem length_indent (f : Format) : f.indent.length = f.indentColumn - 1 := by
  simp [indent, Text.blanks]

end Format

end ControlLanguage
