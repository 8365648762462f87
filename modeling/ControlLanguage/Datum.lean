import ControlLanguage.Text.Display

/-!
# Untyped values

Settings and parameter definitions arrive as untyped values: whatever a
settings document or an editor hands over. Reading them is the work of the
types they become; here is only the value and how a message shows it.
-/

namespace ControlLanguage

inductive Datum
  | null
  | bool (b : Bool)
  | int (n : Int)
  /-- The number `mantissa / 10 ^ places`. -/
  | decimal (mantissa : Int) (places : Nat)
  | text (t : Text)
  | list (items : List Datum)
  | table (fields : List (Text × Datum))
  deriving Inhabited

namespace Datum

/-- What a mantissa with the given number of places is divided by. -/
def scale (places : Nat) : Nat := Nat.pow 10 places

/-- A decimal number with at least one digit on each side of the point. -/
def displayDecimal (mantissa : Int) (places : Nat) : Text :=
  let scale := scale places
  let rest := (Nat.toDigits 10 (scale + mantissa.natAbs % scale)).drop 1
  let fraction := (rest.reverse.dropWhile (· == '0')).reverse
  (if mantissa < 0 then ['-'] else []) ++ Nat.toDigits 10 (mantissa.natAbs / scale) ++ '.' ::
    (if fraction.isEmpty then ['0'] else fraction)

mutual

def display : Datum → Text
  | null => "None".toList
  | bool b => if b then "True".toList else "False".toList
  | int n => (toString n).toList
  | decimal m p => displayDecimal m p
  | text t => t.display
  | list items => '[' :: ", ".toList.intercalate (displayAll items) ++ [']']
  | table fields => '{' :: ", ".toList.intercalate (displayFields fields) ++ ['}']

def displayAll : List Datum → List Text
  | [] => []
  | d :: ds => display d :: displayAll ds

def displayFields : List (Text × Datum) → List Text
  | [] => []
  | (k, d) :: fs => (k.display ++ ": ".toList ++ display d) :: displayFields fs

end

/-- Whether a value counts as not given: nothing, no, zero, and what has nothing in it. -/
def isEmpty : Datum → Bool
  | null | bool false | int 0 | decimal 0 _ | text [] | list [] | table [] => true
  | _ => false

def text? : Datum → Option Text
  | text t => some t
  | _ => none

/-- What a value consists of: the items of a list, the characters of a text, the keys of a table.
A single value does not consist of anything. -/
def items? : Datum → Option (List Datum)
  | list items => some items
  | text t => some (t.map fun c => text [c])
  | table fields => some (fields.map fun f => text f.1)
  | d => if d.isEmpty then some [] else none

def field? (fields : List (Text × Datum)) (key : Text) : Option Datum :=
  (fields.find? (·.1 == key)).map (·.2)

end Datum

end ControlLanguage
