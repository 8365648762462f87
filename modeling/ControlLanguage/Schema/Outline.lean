import ControlLanguage.Schema.Basic

/-!
# Outlines of schemas

An outline is a shape before it is checked: its parts may be missing, or of a
kind that does not fit, or just a name. Inner outlines are checked before
outer ones, from left to right, and the shape of a parameter before its
keyword and its number of instances.
-/

namespace ControlLanguage

inductive Outline
  | simple (type : Text) (allowed : List Datum)
  | qual (parts : List Outline)
  | elem (parts : List Outline)
  | name (name : Text)

namespace Outline

/-- A checked outline: a shape, or the name that stands in its place. -/
abbrev Checked := ProperShape ⊕ Text

/-- The leaves of parts that are all simple. -/
def leaves? : List Checked → Option (List Leaf)
  | [] => some []
  | .inl ⟨.simple leaf, _⟩ :: parts => (leaves? parts).map (leaf :: ·)
  | _ :: _ => none

/-- The shapes of parts, none of which is just a name. -/
def shapes : List Checked → Except SchemaFault (List ProperShape)
  | [] => .ok []
  | .inl s :: parts => (shapes parts).map (s :: ·)
  | .inr n :: _ => .error (.unknownPart n)

def qualShape (parts : List Checked) : Except SchemaFault ProperShape :=
  match leaves? parts with
  | some [] => .error .emptyQual
  | some (leaf :: leaves) => .ok ⟨.qual (leaf :: leaves), rfl⟩
  | none => .error .compoundQualPart

def elemShape (parts : List Checked) : Except SchemaFault ProperShape :=
  match shapes parts with
  | .error fault => .error fault
  | .ok [] => .error .emptyElem
  | .ok (s :: ss) => .ok ⟨.elem ((s :: ss).map (·.val)), by
      simp only [Shape.isProper, List.map_cons, List.isEmpty_cons, Bool.not_false, Bool.true_and]
      exact Shape.areProper_iff.2 fun t ht => by
        obtain ⟨u, _, rfl⟩ := List.mem_map.1 (List.map_cons ▸ ht)
        exact u.property⟩

mutual

def check : Outline → Except SchemaFault Checked
  | simple type allowed => .ok (.inl ⟨.simple (.ofType type allowed), rfl⟩)
  | qual parts =>
    match checkAll parts with
    | .error e => .error e
    | .ok checked => (qualShape checked).map .inl
  | elem parts =>
    match checkAll parts with
    | .error e => .error e
    | .ok checked => (elemShape checked).map .inl
  | name n => .ok (.inr n)

def checkAll : List Outline → Except SchemaFault (List Checked)
  | [] => .ok []
  | o :: os =>
    match check o with
    | .error e => .error e
    | .ok c => (checkAll os).map (c :: ·)

end

end Outline

def Schema.ofOutline (keyword : Text) (outline : Outline) (max : Int) (default : Datum) :
    Except SchemaError Schema :=
  match outline.check with
  | .error fault => .error ⟨[], fault⟩
  | .ok checked => Schema.ofShape keyword checked.getLeft? max default

end ControlLanguage
