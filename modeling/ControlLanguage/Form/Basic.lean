import ControlLanguage.Entries

/-!
# Forms

A form shows the value of a parameter in parts: a text for a simple value,
the parts of a name or a group, or the instances of a parameter that is
repeated.
-/

namespace ControlLanguage

inductive Form
  | leaf (text : Text)
  | parts (items : List Form)

namespace Form

mutual

def isEmpty : Form → Bool
  | leaf t => Text.isBlankText t
  | parts items => areEmpty items

def areEmpty : List Form → Bool
  | [] => true
  | f :: fs => isEmpty f && areEmpty fs

end

mutual

/-- The texts of the leaves side by side, blank parts left out. -/
def flatText : Form → Text
  | leaf t => t
  | parts items => Text.unwords (flatTexts items)

def flatTexts : List Form → List Text
  | [] => []
  | f :: fs => if f.isEmpty then flatTexts fs else flatText f :: flatTexts fs

end

end Form

/-- What the work on a value can lack: a value or a shape that is known. -/
inductive Missing
  | value | shape
  deriving DecidableEq, Repr

end ControlLanguage
