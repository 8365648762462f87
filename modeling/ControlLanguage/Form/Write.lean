import ControlLanguage.Form.Read

/-!
# Texts from forms

The parts of a form are written in the places that the shape gives them,
each leaf as a literal where it needs one. Empty parts at the end are left
out, and an empty part before others is marked as omitted.
-/

namespace ControlLanguage

/-- Stands for an omitted part of a group. -/
def omittedPart : Text := "*N".toList

/-- A group in parentheses, except for a single special value. -/
def parenthesize (t : Text) : Text :=
  if t.head? == some '*' && !t.contains ' ' then t else '(' :: t ++ [')']

def joinParts (texts : List Text) : Text :=
  let kept := (texts.reverse.dropWhile (·.isEmpty)).reverse
  Text.unwords (kept.map fun t => if t.isEmpty then omittedPart else t)

/-- The written parts of a name, the first one last. -/
def joinQualified (texts : List Text) : Text :=
  ['/'].intercalate (texts.filter (!·.isEmpty)).reverse

namespace Form

/-- The parts of a value, with a text read by the shape first. -/
def partsUnder (shape : Shape) (value : Form) : List Form :=
  match value with
  | parts items => items
  | leaf t =>
    match shape.read t with
    | parts items => items
    | leaf t => [leaf t]

end Form

/-- Exactly `arity` parts: surplus ones are dropped, missing ones are blank. -/
def adjustParts (keyword : Text) (arity : Nat) (parts : List Form) : Logged (List Form) := do
  if parts.length ≠ arity then
    Logged.note (.partCount keyword parts.length arity)
  return parts.take arity ++ List.replicate (arity - parts.length) (.leaf [])

namespace Leaf

def write (l : Leaf) (value : Form) : Text :=
  literal value.flatText l.specialValues l.type

end Leaf

namespace Shape

def isElem : Shape → Bool
  | elem _ => true
  | _ => false

mutual

/-- The text of one instance, without parentheses around it. -/
def write (keyword : Text) (value : Form) : Shape → Logged Text
  | simple l => pure (if Text.isBlankText value.flatText then [] else l.write value)
  | qual leaves => do
    let parts ← adjustParts keyword leaves.length (value.partsUnder (qual leaves))
    return joinQualified (leaves.zipWith Leaf.write parts)
  | elem shapes => do
    let parts ← adjustParts keyword shapes.length (value.partsUnder (elem shapes))
    let texts ← writeParts keyword parts shapes
    return joinParts texts

/-- The texts of the parts of a group; an inner group has parentheses. -/
def writeParts (keyword : Text) (values : List Form) : List Shape → Logged (List Text)
  | [] => pure []
  | s :: ss =>
    match values with
    | [] => pure []
    | v :: vs => do
      let t ← write keyword v s
      let ts ← writeParts keyword vs ss
      return (if s.isElem && !t.isEmpty then parenthesize t else t) :: ts

end

def wrapInstance (shape : Shape) (t : Text) : Text :=
  match shape with
  | simple _ => t
  | qual _ => '(' :: t ++ [')']
  | elem _ => parenthesize t

def writeInstances (keyword : Text) (shape : Shape) : List Form → Logged (List Text)
  | [] => pure []
  | v :: vs =>
    if v.isEmpty then writeInstances keyword shape vs
    else do
      let t ← shape.write keyword v
      let ts ← writeInstances keyword shape vs
      return shape.wrapInstance t :: ts

end Shape

namespace Schema

/-- The text of a parameter, all instances, without its keyword. -/
def write (s : Schema) (value : Form) : ExceptT Missing Logged Text :=
  match s.shape with
  | some shape =>
    if s.isRepeated then do
      let items :=
        match value with
        | .parts items => items
        | .leaf t => (s.instances t).map (shape.read ·)
      let texts ← shape.writeInstances s.keyword items
      return Text.unwords texts
    else (shape.write s.keyword value : Logged Text)
  | none =>
    let isWritten :=
      match value with
      | .parts items => items.any (!·.isEmpty)
      | .leaf t => !(s.instances t).isEmpty
    if s.isRepeated && !isWritten then pure [] else throw .shape

end Schema

end ControlLanguage
