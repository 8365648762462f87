import ControlLanguage.Entries
import ControlLanguage.Format.Settings

/-!
# Formats from documents

A settings document is a small part of YAML: lines `key: value`, or a list
of values with a dash in front of each, or a single value; an empty list or
table in brackets; comments after `#`. A value without quotes may stand for
nothing, for a truth value or for a number.
-/

namespace ControlLanguage

namespace Document

def isBreak (c : Char) : Bool := ['\n', '\r', '\u0085', '\u2028', '\u2029'].contains c

/-- The texts between the characters that separate. -/
def divide (separates : Char → Bool) : Text → List Text
  | [] => [[]]
  | c :: cs =>
    if separates c then [] :: divide separates cs
    else
      match divide separates cs with
      | [] => [[c]]
      | t :: ts => (c :: t) :: ts

def dropBlanks (t : Text) : Text := t.dropWhile isBlank

def trimBlanks (t : Text) : Text := (dropBlanks (dropBlanks t).reverse).reverse

/-- Drops a comment, which starts at a `#` after a blank or at the start. -/
def dropComment (afterBlank : Bool) : Text → Text
  | [] => []
  | c :: cs => if c = '#' ∧ afterBlank then [] else c :: dropComment (isBlank c) cs

def plainText (t : Text) : Text := trimBlanks (dropComment true t)

/-- The marks of the start and the end of a document. -/
def boundaries : List Text := ["---", "..."].map String.toList

def contents (t : Text) : List Text :=
  (divide isBreak t).filter fun l => plainText l ≠ [] && !boundaries.contains (plainText l)

/-! ## Quotes -/

/-- What stands in single quotes, in which a quote is doubled, and what follows them. -/
def singleQuoted : Text → Text × Text
  | '\'' :: '\'' :: t => ('\'' :: (singleQuoted t).1, (singleQuoted t).2)
  | '\'' :: t => ([], t)
  | c :: t => (c :: (singleQuoted t).1, (singleQuoted t).2)
  | [] => ([], [])

/-- The letters that stand for other characters after a backslash. -/
def escapes : List (Char × Char) :=
  [('0', '\x00'), ('a', '\x07'), ('b', '\x08'), ('t', '\t'), ('n', '\n'), ('v', '\x0b'),
    ('f', '\x0c'), ('r', '\r'), ('e', '\x1b'), ('N', '\u0085'), ('_', '\u00a0'),
    ('L', '\u2028'), ('P', '\u2029')]

/-- The number of hexadecimal digits that follow a backslash and a letter. -/
def codeLength (c : Char) : Nat :=
  if c = 'x' then 2 else if c = 'u' then 4 else if c = 'U' then 8 else 0

/-- The number with the given digits in some base; underscores do not count. -/
def inBase? (base : Nat) (t : Text) : Option Nat :=
  let value? (c : Char) : Option Nat :=
    let v := if c.isDigit then c.toNat - 0x30 else if c.isAlpha then c.toLower.toNat - 0x57 else base
    if v < base then some v else none
  let digits := t.filter (· != '_')
  if digits.isEmpty then none
  else (digits.mapM value?).map fun ds => ds.foldl (fun n d => base * n + d) 0

/-- What stands in double quotes, in which a backslash escapes, and what follows them. -/
def doubleQuoted (t : Text) : Text × Text :=
  match t with
  | '"' :: t => ([], t)
  | '\\' :: c :: t =>
    let rest := doubleQuoted (t.drop (codeLength c))
    let escaped :=
      match inBase? 16 (t.take (codeLength c)) with
      | some n => Char.ofNat n
      | none => (escapes.lookup c).getD c
    (escaped :: rest.1, rest.2)
  | c :: t => (c :: (doubleQuoted t).1, (doubleQuoted t).2)
  | [] => ([], [])
termination_by t.length
decreasing_by
  · simp only [List.length_drop, List.length_cons]; omega
  · simp

/-! ## Values -/

/-- A decimal number, or one whose parts between colons count in sixties. -/
def sexagesimal? (t : Text) : Option Nat :=
  let isPart (p : Text) : Bool :=
    match p with
    | [c] => c.isDigit
    | [c, d] => '0' ≤ c && c ≤ '5' && d.isDigit
    | _ => false
  match divide (· == ':') t with
  | first :: parts =>
    if parts.all isPart then
      ((first :: parts).mapM (inBase? 10)).map fun ns => ns.foldl (fun n d => 60 * n + d) 0
    else none
  | [] => none

/-- A whole number. A zero in front makes it octal, `0x` hexadecimal and `0b` binary. -/
def natural? : Text → Option Nat
  | '0' :: 'x' :: t => inBase? 16 t
  | '0' :: 'b' :: t => inBase? 2 t
  | '0' :: t => inBase? 8 ('0' :: t)
  | c :: t => if c.isDigit then sexagesimal? (c :: t) else none
  | [] => none

def decimal? (t : Text) : Option (Nat × Nat) :=
  match t.span (· != '.') with
  | (whole, '.' :: fraction) =>
    let fraction := fraction.filter (· != '_')
    if whole.head?.any Char.isDigit then
      (inBase? 10 (whole ++ fraction)).map fun n => (n, fraction.length)
    else none
  | _ => none

def nullWords : List Text := ["", "~", "null", "Null", "NULL"].map String.toList

def trueWords : List Text :=
  ["yes", "Yes", "YES", "true", "True", "TRUE", "on", "On", "ON"].map String.toList

def falseWords : List Text :=
  ["no", "No", "NO", "false", "False", "FALSE", "off", "Off", "OFF"].map String.toList

def plainValue (t : Text) : Datum :=
  let (sign, unsigned) : Int × Text :=
    match t with
    | '-' :: u => (-1, u)
    | '+' :: u => (1, u)
    | u => (1, u)
  if nullWords.contains t then .null
  else if trueWords.contains t then .bool true
  else if falseWords.contains t then .bool false
  else
    match natural? unsigned, decimal? unsigned with
    | some n, _ => .int (sign * n)
    | none, some (m, p) => .decimal (sign * m) p
    | none, none => .text t

def scalarValue (t : Text) : Datum :=
  match dropBlanks t with
  | '\'' :: u => .text (singleQuoted u).1
  | '"' :: u => .text (doubleQuoted u).1
  | u => plainValue (plainText u)

/-- A value on one line: a list in brackets, an empty table or a scalar. -/
def lineValue (t : Text) : Datum :=
  match plainText t with
  | '[' :: u =>
    let inside := u.dropLast
    .list (if inside.all isBlank then [] else (divide (· == ',') inside).map scalarValue)
  | '{' :: u => if u.dropLast.all isBlank then .table [] else .text ('{' :: u)
  | _ => scalarValue t

/-! ## Structure -/

/-- The value behind the colon after a key. A blank or the end of the line has to follow it. -/
def afterColon? : Text → Option Text
  | ':' :: t => if t.head?.all isBlank then some t else none
  | _ => none

/-- The key without quotes and the value of a line `key: value`. -/
def plainKeyValue? (afterBlank : Bool) : Text → Option (Text × Text)
  | [] => none
  | c :: t =>
    if c = '#' ∧ afterBlank then none
    else
      match afterColon? (c :: t) with
      | some value => some ([], value)
      | none => (plainKeyValue? (isBlank c) t).map fun e => (c :: e.1, e.2)

/-- The key and the value of a line. A key may stand in quotes. -/
def keyValue? (l : Text) : Option (Text × Text) :=
  match dropBlanks l with
  | '\'' :: t => (afterColon? (dropBlanks (singleQuoted t).2)).map fun v => ((singleQuoted t).1, v)
  | '"' :: t => (afterColon? (dropBlanks (doubleQuoted t).2)).map fun v => ((doubleQuoted t).1, v)
  | t => (plainKeyValue? true t).map fun e => (trimBlanks e.1, e.2)

def item? (l : Text) : Option Text :=
  match dropBlanks l with
  | '-' :: t => if t.head?.all isBlank then some t else none
  | _ => none

/-- The value of a document. Lines that are neither items nor entries make one text. -/
def read (t : Text) : Datum :=
  match contents t with
  | [] => .null
  | l :: ls =>
    if (item? l).isSome then .list (((l :: ls).filterMap item?).map lineValue)
    else
      match (l :: ls).mapM keyValue?, ls with
      | some entries, _ => .table (Entries.ofList (entries.map fun e => (e.1, lineValue e.2)))
      | none, [] => lineValue l
      | none, _ :: _ => .text (Text.unwords ((l :: ls).map plainText))

/-- The settings of a document. One that says nothing has none, and so has one that says no, zero
or an empty value. -/
def settings? : Datum → Option Settings
  | .table fields => some fields
  | d => if d.isEmpty then some [] else none

end Document

def Format.ofDocument (source text : Text) : Except FormatError Format :=
  match Document.settings? (Document.read text) with
  | some settings => Format.ofTable source settings
  | none => .error (.notTable source)

end ControlLanguage
