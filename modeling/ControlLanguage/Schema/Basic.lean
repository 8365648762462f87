import ControlLanguage.Datum
import ControlLanguage.Literal

/-!
# Parameter schemas

A command definition says what each parameter holds. One instance of it is a
simple value, a name with qualifiers (the parts from right to left), or a
group of such instances side by side. Schemas are checked when they are made:
every group has a part, and every parameter a keyword and room for at least
one instance.
-/

namespace ControlLanguage

/-- The type and the special values of a simple value. -/
structure Leaf where
  type : Text
  /-- The special values as the definition lists them. -/
  allowed : List Datum

namespace Leaf

/-- A leaf whose type is given in any letter case. -/
def ofType (type : Text) (allowed : List Datum) : Leaf := ⟨Text.upper (Text.trim type), allowed⟩

/-- The special values that a parameter can have: only texts. -/
def specialValues (l : Leaf) : List Text := l.allowed.filterMap Datum.text?

def isCommand (l : Leaf) : Bool := verbatimTypes.contains l.type

end Leaf

inductive Shape
  | simple (leaf : Leaf)
  | qual (parts : List Leaf)
  | elem (parts : List Shape)

namespace Shape

mutual

/-- Every name and every group has a part. -/
def isProper : Shape → Bool
  | simple _ => true
  | qual parts => !parts.isEmpty
  | elem parts => !parts.isEmpty && areProper parts

def areProper : List Shape → Bool
  | [] => true
  | s :: ss => isProper s && areProper ss

end

theorem areProper_iff {ss : List Shape} : areProper ss = true ↔ ∀ s ∈ ss, s.isProper = true := by
  induction ss with
  | nil => simp [areProper]
  | cons s ss ih => simp [areProper, ih]

def isSimple : Shape → Bool
  | simple _ => true
  | _ => false

def isFlat (parts : List Shape) : Bool := parts.all isSimple

def arity : Shape → Nat
  | simple _ => 1
  | qual parts => parts.length
  | elem parts => parts.length

end Shape

/-- A shape in which every name and every group has a part. -/
abbrev ProperShape := { s : Shape // s.isProper = true }

inductive SchemaFault
  | emptyQual | emptyElem | compoundQualPart
  | unknownPart (name : Text)
  | blankKeyword
  | maxTooSmall (n : Int)
  | maxNotNumber (shown : Text)
  deriving DecidableEq, Repr

def SchemaFault.message : SchemaFault → String
  | emptyQual => "QualSchema needs at least one part"
  | emptyElem => "ElemSchema needs at least one part"
  | compoundQualPart => "QUAL parts must be simple values"
  | unknownPart name => "Unsupported ELEM part: " ++ String.ofList name.display
  | blankKeyword => "parameter keyword must not be blank"
  | maxTooSmall n => s!"max must be at least 1, got {n}"
  | maxNotNumber shown => "max is not a number: " ++ String.ofList shown

/-- A fault of the schema with the given keyword, which is empty for a part. -/
structure SchemaError where
  keyword : Text
  fault : SchemaFault
  deriving DecidableEq, Repr

namespace SchemaError

def report (keyword : Text) (reason : String) : String :=
  let subject := if keyword.isEmpty then "element" else "'" ++ String.ofList keyword ++ "'"
  "Invalid schema for " ++ subject ++ ": " ++ reason

def message (e : SchemaError) : String := report e.keyword e.fault.message

end SchemaError

/-- The schema of a parameter. `shape` is `none` if the definition names a shape that is not known
here; only reading or writing an instance needs it. -/
structure Schema where
  keyword : Text
  shape : Option Shape
  max : Nat
  /-- The default as the definition gives it, `null` without one. -/
  default : Datum
  keyword_ne_nil : keyword ≠ []
  max_pos : 1 ≤ max
  proper : ∀ s, shape = some s → s.isProper = true

namespace Schema

/-- The schema of a parameter, if its keyword is not blank and it has room for an instance. -/
def ofShape (keyword : Text) (shape : Option ProperShape) (max : Int) (default : Datum) :
    Except SchemaError Schema :=
  let keyword := Text.upper (Text.trim keyword)
  if hk : keyword = [] then .error ⟨[], .blankKeyword⟩
  else if hm : max < 1 then .error ⟨keyword, .maxTooSmall max⟩
  else
    .ok {
      keyword, default
      shape := shape.map (·.val)
      max := max.toNat
      keyword_ne_nil := hk
      max_pos := by omega
      proper := fun s hs => by
        obtain ⟨t, _, rfl⟩ := Option.map_eq_some_iff.1 hs
        exact t.property }

/-- The default that a parameter can have: only a text. -/
def defaultText? (s : Schema) : Option Text := s.default.text?

def isRepeated (s : Schema) : Bool := 1 < s.max

def isSimple (s : Schema) : Bool := s.shape.any Shape.isSimple

def arity (s : Schema) : Nat := (s.shape.map Shape.arity).getD 1

/-- The declared type, or the name of the container. -/
def type (s : Schema) : Text :=
  match s.shape with
  | some (.simple leaf) => leaf.type
  | some (.qual _) => "QUAL".toList
  | some (.elem _) => "ELEM".toList
  | none => []

end Schema

end ControlLanguage
