import ControlLanguage.Token.Basic

/-!
# Commands

A command is a call: a name and ordered bindings of parameter names to
values, with an optional label in front and an optional comment behind. A
value may hold a call again. A binding without a keyword of its own has a
placeholder name that tells its position.
-/

namespace ControlLanguage

structure Binding (ν : Type) where
  name : Text
  value : ν

/-- A call whose parameters are bound to values of type `ν`. -/
structure Call (ν : Type) where
  name : Text
  bindings : List (Binding ν)
  comment : Option Text := none
  label : Option Text := none

/-- The value of a parameter: a single word or literal, several values side by side, a span of
tokens (`wrapped` if it stood in parentheses of its own), or a call. -/
inductive Value
  | scalar (text : Text)
  | group (items : List Value)
  | expression (tokens : List Token) (wrapped : Bool)
  | nested (call : Call Value)

abbrev Command := Call Value

/-- What the placeholder names of positional bindings start with. -/
def placeholderStart : Text := "__pos".toList

/-- The placeholder name at a position, counted from 1. -/
def placeholder (position : Nat) : Text := placeholderStart ++ Nat.toDigits 10 position

def isPlaceholder (name : Text) : Bool := placeholderStart.isPrefixOf name

namespace Binding

def isPositional {ν : Type} (b : Binding ν) : Bool := isPlaceholder b.name

end Binding

namespace Call

variable {ν μ : Type}

def keywords (c : Call ν) : List Text := (c.bindings.filter (!·.isPositional)).map (·.name)

def positionals (c : Call ν) : List (Binding ν) := c.bindings.filter (·.isPositional)

/-- The value of the first binding with the given name, in any letter case. -/
def find? (c : Call ν) (keyword : Text) : Option ν :=
  (c.bindings.find? fun b => b.name.upper == keyword.upper).map (·.value)

/-- The call with the values that `f` gives, if it gives one for every binding. -/
def mapValues? (f : ν → Option μ) (c : Call ν) : Option (Call μ) :=
  (c.bindings.mapM fun b => (f b.value).map (Binding.mk b.name)).map fun bs =>
    { name := c.name, bindings := bs, comment := c.comment, label := c.label }

end Call

end ControlLanguage
