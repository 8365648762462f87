import ControlLanguage.Text.Case

/-!
# Names, variables and plain literals

The small vocabulary by which a word is classified. Letters count in either
case, so a character belongs to a name when its upper case does; the dotless
`ı` and the long `ſ` do, as lower cases of `I` and `S`.
-/

namespace ControlLanguage

/-- Characters that may start a name: letters and `$`, `#`, `@`. -/
def startsName (c : Char) : Bool :=
  match upperChar c with
  | [u] => u.isUpper || u == '$' || u == '#' || u == '@'
  | _ => false

/-- Characters that may follow in a name: also digits and `_`. -/
def continuesName (c : Char) : Bool :=
  match upperChar c with
  | [u] => u.isUpper || u.isDigit || u == '$' || u == '#' || u == '@' || u == '_'
  | _ => false

def isHexDigit (c : Char) : Bool :=
  match upperChar c with
  | [u] => u.isDigit || ('A' ≤ u && u ≤ 'F')
  | _ => false

def nameLimit : Int := 10

/-- Symbolic libraries that may qualify a command name. -/
def symbolicLibraries : List Text :=
  ["*LIBL", "*CURLIB", "*NLVLIBL", "*SYSTEM"].map String.toList

namespace Word

def isName : Text → Bool
  | [] => false
  | c :: cs => startsName c && cs.all continuesName

/-- A name of at most `limit` characters. -/
def isSimpleName (t : Text) (limit : Int := nameLimit) : Bool :=
  t.length ≤ limit && isName t

/-- The text before the first `/` and the text after it, if there is one. -/
def splitSlash (t : Text) : Text × Option Text :=
  match t.span (· != '/') with
  | (library, []) => (library, none)
  | (library, _ :: name) => (library, some name)

/-- `NAME` or `LIB/NAME`, where the library may be symbolic. -/
def isCommand (t : Text) : Bool :=
  match splitSlash t with
  | (name, none) => isName name
  | (library, some name) =>
    isName name && (isName library || symbolicLibraries.contains library.upper)

/-- `LIB/NAME`, both parts of name characters only. -/
def isQualified (t : Text) : Bool :=
  match splitSlash t with
  | (_, none) => false
  | (library, some name) =>
    !library.isEmpty && !name.isEmpty && library.all continuesName && name.all continuesName

/-- `&` and a name of at most `limit` characters that starts with a letter. -/
def isVariable (t : Text) (limit : Int := nameLimit) : Bool :=
  match t with
  | '&' :: c :: cs => c.isAlpha && ((c :: cs).length : Int) ≤ limit && (c :: cs).all continuesName
  | _ => false

/-- A decimal number such as `42`, `-7` or `3.25`. -/
def isNumber (t : Text) : Bool :=
  let unsigned := if t.head? = some '-' ∨ t.head? = some '+' then t.drop 1 else t
  match unsigned.span (· != '.') with
  | (whole, []) => !whole.isEmpty && whole.all Char.isDigit
  | (whole, _ :: fraction) =>
    !whole.isEmpty && whole.all Char.isDigit && !fraction.isEmpty && fraction.all Char.isDigit

/-- A hexadecimal literal such as `X'F0F1'`. -/
def isHexadecimal (t : Text) : Bool :=
  match t with
  | x :: '\'' :: c :: cs =>
    (x == 'x' || x == 'X') && (c :: cs).getLast? == some '\'' && (c :: cs).dropLast.all isHexDigit
  | _ => false

end Word

end ControlLanguage
