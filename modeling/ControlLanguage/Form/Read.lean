import ControlLanguage.Command.Text
import ControlLanguage.Form.Basic
import ControlLanguage.Note
import ControlLanguage.Nesting.Pieces
import ControlLanguage.Schema.Basic

/-!
# Forms from texts

The text of a value is taken apart by the shape of its parameter. The
decisive step is the group: if all its parts are simple its pieces fill them
in order, and otherwise each part takes from the text what belongs to it.
-/

namespace ControlLanguage

/-- The parts of a qualified name, the last one first. Missing parts are empty; if there are too
many, the first ones stay together. -/
def qualifiedParts (arity : Nat) (text : Text) : List Text :=
  let t := dropEnclosing text
  if t = [] then List.replicate arity []
  else
    let segments := (fields (some '/') t).filter (!·.isEmpty)
    let joined := segments.length - (arity - 1)
    let kept :=
      if arity < segments.length then
        ['/'].intercalate (segments.take joined) :: segments.drop joined
      else segments
    kept.reverse ++ List.replicate (arity - kept.length) []

/-- Exactly `arity` texts: missing ones are empty, and surplus ones stay together in the last. -/
def fitTexts (arity : Nat) (texts : List Text) : List Text :=
  if arity < texts.length then
    texts.take (arity - 1) ++ [Text.unwords (texts.drop (arity - 1))]
  else texts ++ List.replicate (arity - texts.length) []

/-- The word at the start of a text, and the text after it. It ends at a blank outside literals
and parentheses, and with `atGroup` also at a group in parentheses. -/
def takeWord (atGroup : Bool) (text : Text) : Text × Text :=
  let t := Text.trimLeft text
  let ends (s : Mark) : Bool :=
    s.isTopBlank || (atGroup && s.role == .parenOpen && s.depth == 0)
  let n := ((marks t).takeWhile (!ends ·)).length
  (t.take n, Text.trimLeft (t.drop n))

/-- The inside of the group in parentheses at the start of a text, and the text after it. A group
that is not closed runs to the end. -/
def takeGroup? (text : Text) : Option (Text × Text) :=
  let t := Text.trimLeft text
  if t.head? = some '(' then
    let stop := (closingParen? t).getD t.length
    some ((t.take stop).drop 1, Text.trimLeft (t.drop (stop + 1)))
  else none

namespace Shape

mutual

def read (text : Text) : Shape → Form
  | simple _ => .leaf (Text.trim text)
  | qual parts => .parts ((qualifiedParts parts.length text).map .leaf)
  | elem parts =>
    let inner := dropEnclosing text
    if isFlat parts then .parts ((fitTexts parts.length (pieces inner)).map .leaf)
    else .parts (readParts inner parts)

/-- The forms of the parts of a group, each from the start of what the parts before it left. A
word in the place of an inner group stands for all of it. -/
def readParts (text : Text) : List Shape → List Form
  | [] => []
  | s :: ss =>
    match s with
    | simple _ =>
      let (word, rest) := takeWord false text
      .leaf word :: readParts rest ss
    | qual leaves =>
      let (word, rest) := takeWord true text
      .parts ((qualifiedParts leaves.length word).map .leaf) :: readParts rest ss
    | elem _ =>
      match takeGroup? text with
      | some (inner, rest) => read inner s :: readParts rest ss
      | none =>
        let (word, rest) := takeWord false text
        .parts (if word.isEmpty then [] else [.leaf word]) :: readParts rest ss

end

end Shape

namespace Schema

/-- The texts of the instances of a repeated parameter. A group without parentheses is one
instance. -/
def instances (s : Schema) (text : Text) : List Text :=
  let pieces := pieces text true
  match s.shape with
  | some (.elem _) =>
    if pieces.any (·.head? == some '(') then pieces
    else if Text.isBlankText text then [] else [Text.trim text]
  | _ => pieces

def read (s : Schema) (text : Text) : Except Missing Form :=
  match s.shape with
  | some shape =>
    if s.isRepeated then .ok (.parts ((s.instances text).map (shape.read ·)))
    else .ok (shape.read text)
  | none =>
    if s.isRepeated && (s.instances text).isEmpty then .ok (.parts []) else .error .shape

def byKeyword (schemas : List Schema) : Entries Schema :=
  Entries.ofList (schemas.map fun s => (s.keyword, s))

end Schema

namespace Call

variable {ν : Type}

/-- Adds the forms of some bindings of the command `name` to `values`. Bindings without a keyword
or without a schema are left out. -/
def readBindings (schemas : Entries Schema) (text? : ν → Option Text) (name : Text)
    (values : Entries Form) : List (Binding ν) → ExceptT Missing Logged (Entries Form)
  | [] => pure values
  | b :: bs => do
    if b.isPositional then
      Logged.note (.unnamedPositional b.name)
      readBindings schemas text? name values bs
    else
      match schemas.get? b.name.upper with
      | none =>
        Logged.note (.undefinedParameter b.name name)
        readBindings schemas text? name values bs
      | some schema =>
        match text? b.value with
        | none => throw .value
        | some t =>
          match schema.read t with
          | .error e => throw e
          | .ok form =>
            readBindings schemas text? name (Entries.insert schema.keyword form values) bs

/-- The forms of the parameters of a call whose values have the texts that `text?` gives. -/
def readForms (schemas : Entries Schema) (text? : ν → Option Text) (c : Call ν) :
    ExceptT Missing Logged (Entries Form) :=
  readBindings schemas text? c.name [] c.bindings

end Call

def Command.forms (schemas : Entries Schema) (c : Command) :
    ExceptT Missing Logged (Entries Form) :=
  c.readForms schemas fun v => some v.text

end ControlLanguage
