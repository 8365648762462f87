import ControlLanguage.Command.OfTokens
import ControlLanguage.Command.Text
import ControlLanguage.Lines.Unit

/-!
# Changing the expressions of a tree

`mapTokens` changes the tokens of every expression, at any depth, and
nothing else. The text of a tree and its units change only as those of the
expressions do.
-/

namespace ControlLanguage

mutual

/-- The value with other tokens in its expressions; `f` is told whether an expression is wrapped. -/
def Value.mapTokens (f : Bool → List Token → List Token) : Value → Value
  | .scalar t => .scalar t
  | .group items => .group (mapTokensOfValues f items)
  | .expression tokens wrapped => .expression (f wrapped tokens) wrapped
  | .nested call => .nested (mapTokensOfCall f call)

def mapTokensOfValues (f : Bool → List Token → List Token) : List Value → List Value
  | [] => []
  | v :: vs => v.mapTokens f :: mapTokensOfValues f vs

def mapTokensOfCall (f : Bool → List Token → List Token) : Call Value → Call Value
  | ⟨name, bindings, comment, label⟩ => ⟨name, mapTokensOfBindings f bindings, comment, label⟩

def mapTokensOfBindings (f : Bool → List Token → List Token) : List (Binding Value) → List (Binding Value)
  | [] => []
  | b :: bs => mapTokensOfBinding f b :: mapTokensOfBindings f bs

def mapTokensOfBinding (f : Bool → List Token → List Token) : Binding Value → Binding Value
  | ⟨name, value⟩ => ⟨name, value.mapTokens f⟩

end

theorem Value.mapTokens_ofGroups (f : Bool → List Token → List Token) (vs : List Value) :
    (ofGroups vs).mapTokens f = ofGroups (mapTokensOfValues f vs) := by
  match vs with
  | [] => rfl
  | [_] => rfl
  | _ :: _ :: _ => rfl

theorem mapTokensOfCall_eq_mk (f : Bool → List Token → List Token) (c : Call Value) :
    mapTokensOfCall f c = { c with bindings := mapTokensOfBindings f c.bindings } := by
  cases c; rfl

section
variable {f : Bool → List Token → List Token}

mutual

theorem Value.mapTokens_eq (hf : ∀ wrapped ts, f wrapped ts = ts) (v : Value) : v.mapTokens f = v := by
  match v with
  | .scalar t => rfl
  | .group items => rw [Value.mapTokens, mapTokensOfValues_eq hf]
  | .expression ts w => rw [Value.mapTokens, hf]
  | .nested c => rw [Value.mapTokens, mapTokensOfCall_eq hf]

theorem mapTokensOfValues_eq (hf : ∀ wrapped ts, f wrapped ts = ts)
    (vs : List Value) : mapTokensOfValues f vs = vs := by
  match vs with
  | [] => rfl
  | v :: vs => rw [mapTokensOfValues, v.mapTokens_eq hf, mapTokensOfValues_eq hf]

theorem mapTokensOfCall_eq (hf : ∀ wrapped ts, f wrapped ts = ts) (c : Call Value) : mapTokensOfCall f c = c := by
  match c with
  | ⟨_, _, _, _⟩ => rw [mapTokensOfCall, mapTokensOfBindings_eq hf]

theorem mapTokensOfBindings_eq (hf : ∀ wrapped ts, f wrapped ts = ts)
    (bs : List (Binding Value)) : mapTokensOfBindings f bs = bs := by
  match bs with
  | [] => rfl
  | ⟨_, v⟩ :: bs => rw [mapTokensOfBindings, mapTokensOfBinding, v.mapTokens_eq hf, mapTokensOfBindings_eq hf]

end

mutual

theorem Value.text_mapTokens (hf : ∀ wrapped ts, joinTokens (f wrapped ts) = joinTokens ts)
    (v : Value) : (v.mapTokens f).text = v.text := by
  match v with
  | .scalar t => rfl
  | .group items => rw [Value.mapTokens, Value.text, textsOfValues_mapTokens hf, Value.text]
  | .expression ts w => rw [Value.mapTokens, Value.text, hf, Value.text]
  | .nested c => rw [Value.mapTokens, Value.text, callText_mapTokens hf, Value.text]

theorem textsOfValues_mapTokens (hf : ∀ wrapped ts, joinTokens (f wrapped ts) = joinTokens ts)
    (vs : List Value) : textsOfValues (mapTokensOfValues f vs) = textsOfValues vs := by
  match vs with
  | [] => rfl
  | v :: vs => rw [mapTokensOfValues, textsOfValues, v.text_mapTokens hf, textsOfValues_mapTokens hf, textsOfValues]

theorem callText_mapTokens (hf : ∀ wrapped ts, joinTokens (f wrapped ts) = joinTokens ts)
    (c : Call Value) : callText (mapTokensOfCall f c) = callText c := by
  match c with
  | ⟨_, _, _, _⟩ => rw [mapTokensOfCall, callText, textsOfBindings_mapTokens hf, callText]

theorem textsOfBindings_mapTokens (hf : ∀ wrapped ts, joinTokens (f wrapped ts) = joinTokens ts)
    (bs : List (Binding Value)) :
    textsOfBindings (mapTokensOfBindings f bs) = textsOfBindings bs := by
  match bs with
  | [] => rfl
  | ⟨_, v⟩ :: bs =>
    rw [mapTokensOfBindings, mapTokensOfBinding, textsOfBindings, textOfBinding, v.text_mapTokens hf,
      textsOfBindings_mapTokens hf, textsOfBindings, textOfBinding]

end

mutual

theorem Value.units_mapTokens
    (hf : ∀ wrapped ts, unitsOfExpression (f wrapped ts) wrapped = unitsOfExpression ts wrapped)
    (v : Value) : (v.mapTokens f).units = v.units := by
  match v with
  | .scalar t => rfl
  | .group items => rw [Value.mapTokens, Value.units, unitsOfValues_mapTokens hf, Value.units]
  | .expression ts w => rw [Value.mapTokens, Value.units, hf, Value.units]
  | .nested c => rw [Value.mapTokens, Value.units, unitsOfCall_mapTokens hf, Value.units]

theorem unitsOfValues_mapTokens
    (hf : ∀ wrapped ts, unitsOfExpression (f wrapped ts) wrapped = unitsOfExpression ts wrapped)
    (vs : List Value) : unitsOfValues (mapTokensOfValues f vs) = unitsOfValues vs := by
  match vs with
  | [] => rfl
  | v :: vs =>
    rw [mapTokensOfValues, unitsOfValues, v.units_mapTokens hf, unitsOfValues_mapTokens hf, unitsOfValues]

theorem unitsOfCall_mapTokens
    (hf : ∀ wrapped ts, unitsOfExpression (f wrapped ts) wrapped = unitsOfExpression ts wrapped)
    (c : Call Value) : unitsOfCall (mapTokensOfCall f c) = unitsOfCall c := by
  match c with
  | ⟨_, _, _, _⟩ => rw [mapTokensOfCall, unitsOfCall, unitsOfBindings_mapTokens hf, unitsOfCall]

theorem unitsOfBindings_mapTokens
    (hf : ∀ wrapped ts, unitsOfExpression (f wrapped ts) wrapped = unitsOfExpression ts wrapped)
    (bs : List (Binding Value)) :
    unitsOfBindings (mapTokensOfBindings f bs) = unitsOfBindings bs := by
  match bs with
  | [] => rfl
  | ⟨_, v⟩ :: bs =>
    rw [mapTokensOfBindings, mapTokensOfBinding, unitsOfBindings, unitsOfBinding, v.units_mapTokens hf,
      unitsOfBindings_mapTokens hf, unitsOfBindings, unitsOfBinding]

end

end

end ControlLanguage
