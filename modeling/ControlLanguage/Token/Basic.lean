import ControlLanguage.Text.Case

/-!
# Tokens

A token is a piece of command text with its kind and its place. The text of
a space token is one blank, however long the run of blanks that it stands
for.
-/

namespace ControlLanguage

inductive TokenKind
  | command | keyword | value | string | variableRef | symbolic | operator | function
  | parenOpen | parenClose | space
  deriving DecidableEq, Repr

/-- Kinds of which a single token is a whole value. -/
def TokenKind.isScalar : TokenKind → Bool
  | value | string | variableRef | symbolic | function | keyword => true
  | command | operator | parenOpen | parenClose | space => false

structure Token where
  kind : TokenKind
  text : Text
  position : Int
  deriving DecidableEq, Repr

namespace Token

def isSpace (t : Token) : Bool := t.kind == .space

/-- Operators that are spelled as a symbolic value. -/
def wordOperators : List Text :=
  ["*CAT", "*BCAT", "*TCAT", "*AND", "*OR", "*NOT", "*EQ", "*GT", "*LT", "*GE", "*LE", "*NE",
    "*NG", "*NL"].map String.toList

def pairOperators : List (Char × Char) :=
  [('|', '|'), ('|', '>'), ('|', '<'), ('>', '='), ('<', '='), ('¬', '='), ('¬', '>'), ('¬', '<')]

def charOperators : Text := ['+', '-', '/', '=', '>', '<', '&', '|', '¬', '*']

/-- Tokens without the places they were read at. -/
def bare (t : Token) : TokenKind × Text := (t.kind, t.text)

end Token

def joinTokens (ts : List Token) : Text := ts.flatMap (·.text)

end ControlLanguage
