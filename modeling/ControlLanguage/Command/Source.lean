import ControlLanguage.Word
import ControlLanguage.Nesting.Search

/-!
# Labels, comments and raw arguments

What stands around a command in its source line, and the argument of one
keyword taken from the text as it is written.
-/

namespace ControlLanguage

def commentStart : Text := "/*".toList

def commentEnd : Text := "*/".toList

/-- The label in front of a command, in upper case, and the text after its colon. -/
def takeLabel (text : Text) : Option Text × Text :=
  let t := Text.trimLeft text
  let name := t.takeWhile continuesName
  match t.drop name.length with
  | ':' :: rest =>
    if Word.isSimpleName name then (some (Text.upper name), Text.trimLeft rest) else (none, t)
  | _ => (none, t)

/-- The text in front of a comment, and the comment. It starts at the first `/*` after a blank
outside literals and runs to the next `*/`, or to the end; a text that starts with `/*` is all
comment. -/
def takeComment (text : Text) : Text × Option Text :=
  if commentStart.isPrefixOf (Text.trimLeft text) then ([], some (Text.trim text))
  else
    match findOutside? (' ' :: commentStart) text with
    | none => (Text.trimRight text, none)
    | some start =>
      let body := text.drop (start + 1)
      let comment :=
        match Text.find? commentEnd body commentStart.length with
        | some stop => body.take (stop + commentEnd.length)
        | none => Text.trimRight body
      (Text.trimRight (text.take start), some comment)

/-- The text between the parentheses after a keyword that starts at `i`, if one does: `none` if
none does, `some none` if the parenthesis is not closed. The keyword is sought in the upper case
of the text. -/
def argumentAt? (text wanted : Text) (i : Nat) : Option (Option Text) :=
  let startsWord := i = 0 ∨ !(text[i - 1]?.any continuesName)
  if wanted.isPrefixOf (text.upper.drop i) ∧ startsWord then
    let j := i + wanted.length
    let opening := j + ((text.drop j).takeWhile isBlank).length
    if text[opening]? = some '(' then
      some ((closingParen? text opening).map fun close =>
        (text.take close).drop (opening + 1))
    else none
  else none

/-- The argument of a keyword as it is written in a command text, for a keyword outside literals
and parentheses; `none` without one, or if the parenthesis of the first one is not closed. -/
def keywordArgument (text keyword : Text) : Option Text :=
  let places := (marks text).filter fun s => !s.role.inLiteral && s.depth == 0
  (places.findSome? fun s => argumentAt? text keyword.upper s.index).join

end ControlLanguage
