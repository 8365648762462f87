import ControlLanguage.Command.Basic

/-!
# Units

A command is laid out in units, texts between which a line may end. The
opening of a parenthesis stays with the first unit inside it and the closing
with the last.
-/

namespace ControlLanguage

def closeUnits (closing first : Text) : List Text → List Text
  | [] => [first ++ closing]
  | u :: us => first :: closeUnits closing u us

/-- Puts a text in front of the first unit and another behind the last. -/
def encloseUnits (opening closing : Text) : List Text → List Text
  | [] => [opening ++ closing]
  | u :: us => closeUnits closing (opening ++ u) us

/-- The runs of tokens between spaces. -/
def tokenRuns : List Token → List (List Token)
  | [] => []
  | t :: ts =>
    if t.isSpace then tokenRuns ts
    else if ts.head?.all (·.isSpace) then [t] :: tokenRuns ts
    else
      match tokenRuns ts with
      | [] => [[t]]
      | run :: runs => (t :: run) :: runs

def unitsOfExpression (tokens : List Token) (wrapped : Bool) : List Text :=
  let units := (tokenRuns tokens).map joinTokens
  if wrapped then encloseUnits ['('] [')'] units else units

/-- The units of a parameter whose value has the given units. -/
def bindingUnits (name : Text) (units : List Text) : List Text :=
  if isPlaceholder name then units else encloseUnits (name ++ ['(']) [')'] units

mutual

def Value.units : Value → List Text
  | .scalar t => if t.isEmpty then [] else [t]
  | .group items => unitsOfValues items
  | .expression tokens wrapped => unitsOfExpression tokens wrapped
  | .nested call => unitsOfCall call

def unitsOfValues : List Value → List Text
  | [] => []
  | v :: vs => v.units ++ unitsOfValues vs

def unitsOfCall : Call Value → List Text
  | ⟨name, bindings, _, _⟩ => name :: unitsOfBindings bindings

def unitsOfBindings : List (Binding Value) → List Text
  | [] => []
  | b :: bs => unitsOfBinding b ++ unitsOfBindings bs

def unitsOfBinding : Binding Value → List Text
  | ⟨name, value⟩ => bindingUnits name value.units

end

def Command.units (c : Command) : List Text := unitsOfBindings c.bindings

end ControlLanguage
