import ControlLanguage.Command.Parse
import ControlLanguage.Command.Positional
import ControlLanguage.Form.Command
import ControlLanguage.Format.Settings
import ControlLanguage.Lines.Layout

/-!
# Editing sessions

A session edits one command by the schemas of its parameters: the text is
read into a command and the command into forms, forms are changed, and they
become text and lines again. A step that fails changes nothing.
-/

namespace ControlLanguage

namespace Session

/-- `touched` holds the keywords that were changed in the form, `text` the text that was written
last. -/
structure State where
  command : Option Command := none
  values : Entries Form := []
  touched : List Text := []
  text : Text := []

inductive Step
  /-- Reads a command from the given text, or from the text that was written last. -/
  | parse (text : Option Text)
  | assignKeywords (keywords : List Text) (limit : Option Int)
  | readForms
  | set (keyword : Text) (value : Form)
  | remove (keyword : Text)
  | touch (keywords : List Text)
  | touchAll
  | write
  /-- Lays out the command, or the text that was written last. -/
  | layout (settings : Settings) (ofText : Bool)

inductive Answer
  | command (c : Command)
  | text (t : Text)
  | values (es : Entries Form)
  | keywords (ks : List Text)
  | lines (ls : List Text)

inductive Failure
  | noCommand
  | malformed (e : SyntaxError)
  | missing (m : Missing)
  | format (e : FormatError)

abbrev Outcome := ExceptT Failure Logged (State × Answer)

def State.requireCommand (s : State) : Except Failure Command :=
  match s.command with
  | some c => .ok c
  | none => .error .noCommand

def parse (text : Text) : Except Failure Command :=
  match Command.parse text with
  | .ok c => .ok c
  | .error e => .error (.malformed e)

def orMissing {α : Type} (x : ExceptT Missing Logged α) : ExceptT Failure Logged α :=
  x.adapt .missing

/-- The state after a step, and what the step answers. -/
def step (schemas : List Schema) (s : State) : Step → Outcome
  | .parse text => do
    let c ← parse (text.getD s.text)
    return ({ s with command := some c }, .command c)
  | .assignKeywords keywords limit => do
    let c ← s.requireCommand
    let named := c.assignKeywords keywords limit
    return ({ s with command := some named }, .text named.text)
  | .readForms => do
    let c ← s.requireCommand
    let values ← orMissing (Command.forms (Schema.byKeyword schemas) c)
    return ({ s with values }, .values values)
  | .set keyword value =>
    let values := s.values.insert keyword value
    return ({ s with values }, .values values)
  | .remove keyword =>
    let values := s.values.erase keyword
    return ({ s with values }, .values values)
  | .touch keywords =>
    let touched := s.touched ++ keywords
    return ({ s with touched }, .keywords touched)
  | .touchAll => do
    let c ← s.requireCommand
    return ({ s with touched := c.keywords }, .keywords c.keywords)
  | .write => do
    let c ← s.requireCommand
    let form : CommandForm :=
      { name := c.name, values := s.values, touched := s.touched, label := c.label }
    let text ← orMissing (form.write schemas)
    return ({ s with text }, .text text)
  | .layout settings ofText => do
    let format ←
      match Format.ofTable "mapping".toList settings with
      | .ok f => pure f
      | .error e => throw (.format e)
    let c ← if ofText then parse s.text else s.requireCommand
    let lines ← (format.layout c : Logged (List Text))
    return (s, .lines lines)

/-- The state that a step leaves behind. A step that fails changes nothing. -/
def State.after (s : State) (outcome : Logged (Except Failure (State × Answer))) : State :=
  match outcome.value with
  | .ok (s', _) => s'
  | .error _ => s

/-- What the steps of a session answer, one after the other. -/
def run (schemas : List Schema) (s : State) : List Step → List (Logged (Except Failure Answer))
  | [] => []
  | t :: ts =>
    let outcome := (step schemas s t).run
    ⟨outcome.notes, outcome.value.map (·.2)⟩ :: run schemas (s.after outcome) ts

end Session

end ControlLanguage
