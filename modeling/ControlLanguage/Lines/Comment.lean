import ControlLanguage.Command.Source
import ControlLanguage.Lines.Placed

/-!
# Placing a comment

A comment that does not fit behind a command is written anew word by word.
Its words go on over as many lines as they need, and a word that is too long
for a line is cut.
-/

namespace ControlLanguage

def wordsOfComment (comment : Text) : List Text :=
  let t := Text.trim comment
  let t := if commentStart.isPrefixOf t then t.drop commentStart.length else t
  let t := if commentEnd.isSuffixOf t then t.take (t.length - commentEnd.length) else t
  Text.words t

namespace Format

/-- The length of a blank and the closing mark of a comment. -/
def closingRoom : Nat := 3

/-- A comment starts on the line of the command only with this much room. -/
def leastCommentRoom : Nat := 10

/-- Places a word on a line that has no word of the comment yet. -/
def putFirstWord (f : Format) (line word : Text) : Logged Placed :=
  if _room : line.length + word.length + closingRoom ≤ f.rightMargin then
    pure ⟨[], line ++ word⟩
  else
    let room := max (f.rightMargin - line.length - closingRoom) 1
    do
      Logged.note (.wordCut word f.rightMargin)
      let p ← putFirstWord f f.indent (word.drop room)
      return { p with lines := (line ++ word.take room ++ [f.continuation]) :: p.lines }
termination_by (word.length, if line = f.indent then 0 else 1)
decreasing_by
  have hi := f.indent_fits
  have hl := f.length_indent
  simp only [commentRoom, closingRoom] at *
  by_cases hw : word.length = 0
  · have hne : line ≠ f.indent := by
      intro h
      subst h
      omega
    simp only [↓reduceIte, hne]
    have : (word.drop (max (f.rightMargin - line.length - 3) 1)).length = word.length := by
      simp only [List.length_drop]; omega
    rw [this]
    exact Prod.Lex.right _ (by omega)
  · exact Prod.Lex.left _ _ (by simp only [List.length_drop]; omega)

def putWord (f : Format) (line word : Text) : Logged Placed :=
  if line.length + 1 + word.length + closingRoom ≤ f.rightMargin then
    pure ⟨[], line ++ ' ' :: word⟩
  else do
    let p ← f.putFirstWord f.indent word
    return { p with lines := (line ++ [' ', f.continuation]) :: p.lines }

def putWords (f : Format) (line : Text) : List Text → Logged Placed
  | [] => pure ⟨[], line⟩
  | w :: ws => do
    let p ← f.putWord line w
    let q ← f.putWords p.line ws
    return ⟨p.lines ++ q.lines, q.line⟩

def putCommentWords (f : Format) (line : Text) : List Text → Logged Placed
  | [] => pure ⟨[], line⟩
  | w :: ws => do
    let p ← f.putFirstWord line w
    let q ← f.putWords p.line ws
    return ⟨p.lines ++ q.lines, q.line⟩

/-- The start of a comment that is written anew, behind the command or on the next line. -/
def openComment (f : Format) (line : Text) : Placed :=
  let opening := ' ' :: commentStart ++ [' ']
  if line.length + opening.length + closingRoom + leastCommentRoom ≤ f.rightMargin then
    ⟨[], line ++ opening⟩
  else ⟨[f.endLine line], f.indent ++ commentStart ++ [' ']⟩

def putComment (f : Format) (line comment : Text) : Logged Placed :=
  if line.length + 1 + comment.length ≤ f.rightMargin then
    pure ⟨[], line ++ ' ' :: comment⟩
  else do
    let opened := f.openComment line
    let p ← f.putCommentWords opened.line (wordsOfComment comment)
    return ⟨opened.lines ++ p.lines, p.line ++ ' ' :: commentEnd⟩

end Format

end ControlLanguage
