import ControlLanguage.Form.Write

/-!
# Commands from forms

A filled-in form becomes a command text again: the parameters in the order
of the definition, without those that are empty and those that were left at
their default.
-/

namespace ControlLanguage

/-- The form of a whole command. `touched` holds the keywords that the user changed. -/
structure CommandForm where
  name : Text
  values : Entries Form
  defaults : Entries Text := []
  touched : List Text := []
  label : Option Text := none

namespace CommandForm

/-- The qualifier that a command name does not need. -/
def libraryListPrefix : Text := "*LIBL/".toList

/-- A text up to letter case and spacing. -/
def folded (t : Text) : Text := Text.upper (Text.unwords (Text.words t))

def shownName (name : Text) : Text :=
  let t := Text.trim name
  if libraryListPrefix.isPrefixOf (Text.upper t) then t.drop libraryListPrefix.length else t

def shownLabel (label : Option Text) : List Text :=
  match label with
  | some l => if Text.isBlankText l then [] else [Text.upper (Text.trim l) ++ [':']]
  | none => []

/-- A simple value may come as a list of itself. -/
def plainValue (s : Schema) (value : Form) : Form :=
  match value with
  | .parts [v] => if s.isSimple && !s.isRepeated then v else value
  | _ => value

/-- Whether a value, which is written as `text`, is the default. -/
def isDefault (value : Form) (text default writtenDefault : Text) : Bool :=
  folded text == folded default || folded text == folded writtenDefault ||
    match value with
    | .leaf t => folded t == folded default
    | .parts _ => false

/-- The text of one parameter, or `none` if it is left out. -/
def parameter? (values : Entries Form) (defaults : Entries Text) (touched : List Text)
    (s : Schema) : ExceptT Missing Logged (Option Text) :=
  match (values.get? s.keyword).filter (!·.isEmpty) with
  | none => do
    Logged.note (.noValue s.keyword)
    return none
  | some found => do
    let value := plainValue s found
    let text ← s.write value
    if text.isEmpty then
      Logged.note (.emptyText s.keyword)
      return none
    let written := s.keyword ++ '(' :: text ++ [')']
    if touched.contains s.keyword then return some written
    match (defaults.get? s.keyword).or s.defaultText? with
    | none => return some written
    | some default =>
      let writtenDefault ← s.write (.leaf default)
      if isDefault value text default writtenDefault then
        Logged.note (.unchangedDefault s.keyword default)
        return none
      return some written

def parameters (values : Entries Form) (defaults : Entries Text) (touched : List Text) :
    List Schema → ExceptT Missing Logged (List Text)
  | [] => pure []
  | s :: ss => do
    let first ← parameter? values defaults touched s
    let rest ← parameters values defaults touched ss
    return first.toList ++ rest

/-- The command text of a form. Keywords count in any letter case. -/
def write (f : CommandForm) (schemas : List Schema) : ExceptT Missing Logged Text := do
  let texts ← parameters f.values.upperKeys f.defaults.upperKeys (f.touched.map Text.upper) schemas
  return Text.unwords (shownLabel f.label ++ shownName f.name :: texts)

end CommandForm

end ControlLanguage
