import ControlLanguage.Entries
import ControlLanguage.Schema.Outline
import ControlLanguage.Datum
import ControlLanguage.Text.Number

/-!
# Schemas from parameter definitions

A parameter definition is an untyped table. Its keys count in any letter
case, and of those that are one in lower case the last: `Kwd` or `Keyword`,
`Type`, `Max`, `Dft` or `Default`, `Values` or `Allowed_values`, and `Qual`
and `Elem`, which list the definitions of the parts.
-/

namespace ControlLanguage

inductive DefinitionError
  | unsound (e : SchemaError)
  /-- A single value stands where a list has to stand. -/
  | notList
  /-- A value is not a text, or a part not a definition. -/
  | wrongKind

namespace Definition

/-- A field of a definition: its value, and the shapes of the parts that it lists. -/
structure Field where
  value : Datum
  parts : Except DefinitionError (List ProperShape)

def find? (fields : Entries Field) (key : String) : Option Field := fields.get? key.toList

/-- The first of two keys that the definition has. -/
def findEither? (fields : Entries Field) (key other : String) : Option Field :=
  (find? fields key).or (find? fields other)

def isGiven (field : Option Field) : Bool := field.any (!·.value.isEmpty)

/-- The text of a field, empty if the field is not given. -/
def textOf (field : Option Field) : Except DefinitionError Text :=
  match field.map Field.value with
  | some (.text t) => .ok t
  | _ => if isGiven field then .error .wrongKind else .ok []

def allowedOf (field : Option Field) : Except DefinitionError (List Datum) :=
  match field.map (·.value.items?) with
  | some (some items) => .ok items
  | some none => .error .notList
  | none => .ok []

/-- A shape made of the parts that a field lists. -/
def shapeOfParts (keyword : Text)
    (make : List Outline.Checked → Except SchemaFault ProperShape) (field : Option Field) :
    Except DefinitionError ProperShape :=
  match (field.map Field.parts).getD (.ok []) with
  | .error e => .error e
  | .ok parts => (make (parts.map .inl)).mapError fun fault => .unsound ⟨keyword, fault⟩

/-- The shape of an instance. A declared type `QUAL` or `ELEM` decides between the two lists of
parts; otherwise a list that is not empty does, names first. -/
def shapeOf (keyword : Text) (fields : Entries Field) : Except DefinitionError ProperShape :=
  match textOf (find? fields "type") with
  | .error e => .error e
  | .ok type =>
    let declared := Text.upper (Text.trim type)
    let qual := find? fields "qual"
    let elem := find? fields "elem"
    if declared = "QUAL".toList ∨ (isGiven qual ∧ declared ≠ "ELEM".toList) then
      shapeOfParts keyword Outline.qualShape qual
    else if declared = "ELEM".toList ∨ isGiven elem then
      shapeOfParts keyword Outline.elemShape elem
    else
      (allowedOf (findEither? fields "values" "allowed_values")).map fun allowed =>
        ⟨.simple (.ofType declared allowed), rfl⟩

mutual

def shapeOfPart (keyword : Text) : Datum → Except DefinitionError ProperShape
  | .table entries => shapeOf keyword (Entries.lowerKeys (readFields keyword entries))
  | _ => .error .wrongKind

def shapesOfParts (keyword : Text) : List Datum → Except DefinitionError (List ProperShape)
  | [] => .ok []
  | d :: ds =>
    match shapeOfPart keyword d with
    | .error e => .error e
    | .ok s => (shapesOfParts keyword ds).map (s :: ·)

/-- The shapes of the parts that a value lists. Neither the characters of a text nor the keys of a
table are definitions. -/
def listedParts (keyword : Text) : Datum → Except DefinitionError (List ProperShape)
  | .list items => shapesOfParts keyword items
  | d =>
    match d.items? with
    | none => .error .notList
    | some [] => .ok []
    | some (_ :: _) => .error .wrongKind

/-- The entries of a definition with what they list. -/
def readFields (keyword : Text) : List (Text × Datum) → List (Text × Field)
  | [] => []
  | (key, d) :: es => (key, ⟨d, listedParts keyword d⟩) :: readFields keyword es

end

/-- The fields of a definition, their keys in lower case. -/
def fieldsOf (keyword : Text) (entries : List (Text × Datum)) : Entries Field :=
  Entries.lowerKeys (readFields keyword entries)

/-- The whole number that a value stands for. The fraction of a number is dropped. -/
def toInt? : Datum → Option Int
  | .int n => some n
  | .bool b => some (if b then 1 else 0)
  | .decimal m p => some (Int.tdiv m (Datum.scale p))
  | .text t => Text.toInt? t
  | _ => none

def shownKeyword : Option Datum → Text
  | some (.text t) => t
  | some d => d.display
  | none => []

/-- The value of `Kwd` or else of `Keyword`. -/
def keywordOf (entries : List (Text × Datum)) : Option Datum :=
  let entries := Entries.lowerKeys entries
  (entries.get? "kwd".toList).or (entries.get? "keyword".toList)

end Definition

def Schema.ofDefinition (entries : List (Text × Datum)) : Except DefinitionError Schema := do
  let shown := Definition.shownKeyword (Definition.keywordOf entries)
  let fields := Definition.fieldsOf shown entries
  let valueOf (field : Option Definition.Field) : Option Datum := field.map Definition.Field.value
  let count := (valueOf (Definition.find? fields "max")).getD (.int 1)
  let max ←
    match Definition.toInt? count with
    | some n => pure n
    | none => throw (.unsound ⟨shown, .maxNotNumber count.display⟩)
  let shape ← Definition.shapeOf shown fields
  let keyword ← Definition.textOf (Definition.findEither? fields "kwd" "keyword")
  let default := (valueOf (Definition.findEither? fields "dft" "default")).getD .null
  (Schema.ofShape keyword (some shape) max default).mapError .unsound

end ControlLanguage
