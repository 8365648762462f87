import ControlLanguage.Word
import ControlLanguage.Nesting.Search
import ControlLanguage.Token.Basic

/-!
# The tokens of a text

Every text has tokens: a literal without an end runs to the end of the text,
and a text that does not start with a command name starts with some other
token. `Token.ofText` reads them from left to right; which kind of token
starts at a place depends on the rest of the text and on whether it is the
first.
-/

namespace ControlLanguage

namespace Token

/-- How many characters the word at the start of a text has. A word ends at a blank or a
parenthesis outside literals. -/
def wordLength (t : Text) : Nat :=
  ((marks t).takeWhile fun s => s.role.inLiteral || (s.role == .plain && !isBlank s.char)).length

/-- The kind of a word that starts with `*` and a letter and goes on with `run`, and how many
characters follow the `*`. In front of a `/` it is the first part of a longer word. -/
def starKind (cs : Text) : TokenKind × Nat :=
  let run := cs.takeWhile continuesName
  if wordOperators.contains (Text.upper ('*' :: run)) then (.operator, run.length)
  else if (cs.drop run.length).head? = some '/' then (.value, wordLength ('*' :: cs) - 1)
  else (.symbolic, run.length)

/-- The kind of the token that starts with `c`, and how many of the following characters `cs`
belong to it. -/
def kindAt (first : Bool) (c : Char) (cs : Text) : TokenKind × Nat :=
  let letterNext := cs.head?.any Char.isAlpha
  if isBlank c then (.space, (cs.takeWhile isBlank).length)
  else if c = '(' then (.parenOpen, 0)
  else if c = ')' then (.parenClose, 0)
  else if c = '\'' ∨ c = '"' then (.string, (endOfLiteral (c :: cs)).1 - 1)
  else
    let word := (c :: cs).take (wordLength (c :: cs))
    if first && Word.isCommand word then (.command, word.length - 1)
    else if c = '&' ∧ letterNext then (.variableRef, (cs.takeWhile continuesName).length)
    else if c = '*' ∧ letterNext then starKind cs
    else if c = '%' ∧ letterNext then (.function, (cs.takeWhile Char.isAlpha).length)
    else if cs.head?.any fun d => pairOperators.contains (c, d) then (.operator, 1)
    else if charOperators.contains c then (.operator, 0)
    else (if Word.isName word then .keyword else .value, word.length - 1)

/-- The tokens of a text that starts at offset `pos`; `first` holds before the first token. -/
def readFrom (first : Bool) (pos : Nat) : Text → List Token
  | [] => []
  | c :: cs =>
    let (kind, n) := kindAt first c cs
    let text := if kind = .space then [' '] else c :: cs.take n
    ⟨kind, text, pos⟩ :: readFrom false (pos + 1 + n) (cs.drop n)
termination_by t => t.length
decreasing_by simp only [List.length_drop, List.length_cons]; omega

/-- The tokens of a text, without the blanks it starts with. -/
def ofText (t : Text) : List Token :=
  readFrom true (t.takeWhile isBlank).length (t.dropWhile isBlank)

theorem readFrom_nil (first : Bool) (pos : Nat) : readFrom first pos [] = [] := by
  rw [readFrom]

theorem readFrom_cons (first : Bool) (pos : Nat) (c : Char) (cs : Text) :
    readFrom first pos (c :: cs) =
      ⟨(kindAt first c cs).1,
        if (kindAt first c cs).1 = .space then [' '] else c :: cs.take (kindAt first c cs).2, pos⟩ ::
      readFrom false (pos + 1 + (kindAt first c cs).2) (cs.drop (kindAt first c cs).2) := by
  rw [readFrom]

end Token

end ControlLanguage
