import ControlLanguage.Token.OfText

/-!
# Faults of a command text

A fault has a reason and, as far as they are known, a place, the parameter
that was being read and the text. Its message ends with a block that points
at the place. `Token.check` finds the two faults that tokens can have.
-/

namespace ControlLanguage

/-- Where a fault was found. The position is the offset of a character of the source. -/
structure Location where
  source : Option Text := none
  position : Option Int := none
  keyword : Option Text := none
  deriving DecidableEq, Repr

namespace Location

/-- The lines that describe a location. The caret stands under the character, if the source is
that long. -/
def lines (l : Location) : List String :=
  let column := l.position.map fun p => s!"  at column {p + 1}"
  let parameter := (l.keyword.filter (!·.isEmpty)).map fun k => "  in parameter " ++ String.ofList k
  let source := l.source.filter (!·.isEmpty)
  let shown := source.map fun t => "  command: " ++ String.ofList t
  let caret := do
    let t ← source
    let p ← l.position
    if p ≤ t.length then
      some ("  " ++ String.ofList (Text.blanks (9 + p).toNat) ++ "^")
    else none
  [column, parameter, shown, caret].filterMap id

/-- A reason with the description of a location below it. -/
def report (reason : String) (l : Location) : String := "\n".intercalate (reason :: l.lines)

end Location

inductive Reason
  | noCommandName | openLiteral
  | unmatchedClose | unclosedParen | positionalAfterKeyword
  deriving DecidableEq, Repr

namespace Reason

/-- Faults of the tokens, as opposed to faults of their order. -/
def isLexical : Reason → Bool
  | noCommandName | openLiteral => true
  | unmatchedClose | unclosedParen | positionalAfterKeyword => false

def message : Reason → String
  | noCommandName => "Command text does not start with a command name"
  | openLiteral => "Unterminated quoted string"
  | unmatchedClose => "Unmatched closing parenthesis"
  | unclosedParen => "Unbalanced parentheses"
  | positionalAfterKeyword => "Positional value after a keyword parameter"

end Reason

structure SyntaxError where
  reason : Reason
  location : Location
  deriving DecidableEq, Repr

namespace SyntaxError

def atToken (reason : Reason) (token : Token) (keyword : Option Text := none) : SyntaxError :=
  ⟨reason, { position := some token.position, keyword }⟩

/-- The same fault with the source it was found in. -/
def within (source : Option Text) (e : SyntaxError) : SyntaxError :=
  { e with location := { e.location with source } }

def message (e : SyntaxError) : String := e.location.report e.reason.message

end SyntaxError

namespace Token

def isClosedLiteral (t : Token) : Bool := endOfLiteral t.text == (t.text.length, true)

/-- The first token, which has to be a command name, and the others. Every literal among them has
to end. -/
def check (source : Option Text) (tokens : List Token) : Except SyntaxError (Token × List Token) :=
  match tokens with
  | [] => .error ⟨.noCommandName, { source, position := some 0 }⟩
  | t :: ts =>
    if t.kind ≠ .command then .error ((SyntaxError.atToken .noCommandName t).within source)
    else
      match tokens.find? fun t => t.kind == .string && !t.isClosedLiteral with
      | some t => .error ((SyntaxError.atToken .openLiteral t).within source)
      | none => .ok (t, ts)

end Token

end ControlLanguage
