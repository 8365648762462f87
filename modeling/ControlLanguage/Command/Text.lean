import ControlLanguage.Command.Basic

/-!
# The canonical text of a command

Parameters follow the name with single blanks between them, as `NAME(value)`
or, without a keyword, as the bare value.
-/

namespace ControlLanguage

/-- A parameter whose value has the text `t`. -/
def bindingText (name t : Text) : Text :=
  if isPlaceholder name then t else name ++ '(' :: t ++ [')']

mutual

/-- The text of a value; a call inside it shows neither its label nor its comment. -/
def Value.text : Value → Text
  | .scalar t => t
  | .group items => Text.unwords (textsOfValues items)
  | .expression tokens wrapped =>
    if wrapped then '(' :: joinTokens tokens ++ [')'] else joinTokens tokens
  | .nested call => callText call

def textsOfValues : List Value → List Text
  | [] => []
  | v :: vs => v.text :: textsOfValues vs

def callText : Call Value → Text
  | ⟨name, bindings, _, _⟩ => Text.unwords (name :: textsOfBindings bindings)

def textsOfBindings : List (Binding Value) → List Text
  | [] => []
  | b :: bs => textOfBinding b :: textsOfBindings bs

def textOfBinding : Binding Value → Text
  | ⟨name, value⟩ => bindingText name value.text

end

def Binding.text (b : Binding Value) : Text := bindingText b.name b.value.text

theorem textsOfValues_eq_map (vs : List Value) : textsOfValues vs = vs.map Value.text := by
  induction vs with
  | nil => rfl
  | cons v vs ih => rw [textsOfValues, ih, List.map_cons]

theorem textsOfBindings_eq_map (bs : List (Binding Value)) :
    textsOfBindings bs = bs.map Binding.text := by
  induction bs with
  | nil => rfl
  | cons b bs ih =>
    cases b
    rw [textsOfBindings, ih, List.map_cons, textOfBinding, Binding.text]

namespace Call

def body (c : Command) : Text := Text.unwords (c.name :: c.bindings.map Binding.text)

/-- A label or comment counts only if it is not empty. -/
def part? (t : Option Text) : Option Text := t.filter (!·.isEmpty)

def text (c : Command) : Text :=
  match part? c.label with
  | some l => l ++ ": ".toList ++ c.body
  | none => c.body

def fullText (c : Command) : Text :=
  match part? c.comment with
  | some k => c.text ++ ' ' :: k
  | none => c.text

end Call

theorem callText_eq_body (c : Command) : callText c = c.body := by
  cases c with
  | mk name bindings comment label => rw [callText, textsOfBindings_eq_map]; rfl

end ControlLanguage
