import ControlLanguage.Nesting.Search

/-!
# Cutting a text outside literals and parentheses

`segments` cuts a text at chosen marks. Pieces are cut at blanks, and on
request also around each parenthesised group; fields are cut at a separator
and keep their places, so an empty one counts.
-/

namespace ControlLanguage

/-- What a mark means for the segments: it stays inside one, or it is dropped between two, or a
segment starts with it or ends with it. -/
inductive Cut
  | inside | drop | before | after
  deriving DecidableEq

/-- The texts between the cuts, empty ones included. -/
def segments (cut : Mark → Cut) : List Mark → List Text
  | [] => [[]]
  | m :: ms =>
    match cut m, segments cut ms with
    | .drop, later => [] :: later
    | .after, later => [m.char] :: later
    | .before, [] => [[], [m.char]]
    | .before, t :: later => [] :: (m.char :: t) :: later
    | .inside, [] => [[m.char]]
    | .inside, t :: later => (m.char :: t) :: later

/-- Blanks separate pieces; with `groups` a group in parentheses is a piece of its own. -/
def pieceCut (groups : Bool) (m : Mark) : Cut :=
  if m.isTopBlank then .drop
  else if groups && m.role == .parenOpen && m.depth == 0 then .before
  else if groups && m.role == .parenClose && m.depth == 0 then .after
  else .inside

def fieldCut (separator : Char) (m : Mark) : Cut :=
  if m.role == .plain && m.depth == 0 && m.char == separator then .drop else .inside

/-- The non-empty pieces between the blanks outside literals and parentheses, trimmed. With
`groups`, `(A B)(C D)` has two. -/
def pieces (text : Text) (groups : Bool := false) : List Text :=
  ((segments (pieceCut groups) (marks text)).map Text.trim).filter (!·.isEmpty)

/-- The trimmed fields between the separators outside literals and parentheses. Without a
separator the text is one field. -/
def fields (separator : Option Char) (text : Text) : List Text :=
  match separator with
  | some c => (segments (fieldCut c) (marks text)).map Text.trim
  | none => [Text.trim text]

end ControlLanguage
