import ControlLanguage.Datum
import ControlLanguage.Format.Basic
import ControlLanguage.Text.Number

/-!
# Formats from settings

Settings are an untyped table. Each one has a name and mostly a second name
in camel case, which wins if both are given. A column may be spelled as text
or as a number without a fraction. All settings are looked at, and every
problem is told; the columns are compared only if each is sound.
-/

namespace ControlLanguage

inductive ProblemKind
  | missing | unknownKey
  | tooSmall (least : Nat) | notNumber | unreadableNumber | fractional
  | notText | emptyText | longText
  | unknownCase
  | noRoom (margin indent : Nat)
  | marginAtCommand (margin command : Nat)
  deriving DecidableEq, Repr

namespace ProblemKind

def code : ProblemKind → String
  | missing => "missing"
  | unknownKey => "extra_forbidden"
  | tooSmall _ => "greater_than_equal"
  | notNumber => "int_type"
  | unreadableNumber => "int_parsing"
  | fractional => "int_from_float"
  | notText => "string_type"
  | emptyText => "string_too_short"
  | longText => "string_too_long"
  | unknownCase => "literal_error"
  | noRoom .. | marginAtCommand .. => "value_error"

def message : ProblemKind → String
  | missing => "Field required"
  | unknownKey => "Extra inputs are not permitted"
  | tooSmall least => s!"Input should be greater than or equal to {least}"
  | notNumber => "Input should be a valid integer"
  | unreadableNumber =>
    "Input should be a valid integer, unable to parse string as an integer"
  | fractional => "Input should be a valid integer, got a number with a fractional part"
  | notText => "Input should be a valid string"
  | emptyText => "String should have at least 1 character"
  | longText => "String should have at most 1 character"
  | unknownCase => "Input should be '*UPPER', '*LOWER' or '*NONE'"
  | noRoom margin indent =>
    s!"Value error, right_margin ({margin}) leaves no room after cont_indent ({indent})"
  | marginAtCommand margin command =>
    s!"Value error, right_margin ({margin}) must be greater than left_margin ({command})"

end ProblemKind

/-- A problem with the setting at a key, or with the settings together. -/
structure Problem where
  kind : ProblemKind
  key : Option Text
  deriving DecidableEq, Repr

inductive FormatError
  | invalid (source : Text) (problems : List Problem)
  | notTable (source : Text)

def FormatError.report (source reason : Text) : String :=
  "Invalid layout configuration from " ++ String.ofList source ++ ": " ++ String.ofList reason

def FormatError.notTableReason : Text := "top level of the document must be a mapping".toList

abbrev Settings := List (Text × Datum)

namespace Settings

structure Key where
  name : Text
  other : Option Text

namespace Key

def labelColumn : Key := ⟨"label_position".toList, some "labelPosition".toList⟩
def commandColumn : Key := ⟨"left_margin".toList, some "leftMargin".toList⟩
def keywordColumn : Key := ⟨"kwd_position".toList, some "kwdPosition".toList⟩
def indentColumn : Key := ⟨"cont_indent".toList, some "contIndent".toList⟩
def rightMargin : Key := ⟨"right_margin".toList, some "rightMargin".toList⟩
def continuation : Key := ⟨"continuation_char".toList, some "continuationChar".toList⟩
def letterCase : Key := ⟨"case".toList, none⟩

def all : List Key :=
  [labelColumn, commandColumn, keywordColumn, indentColumn, rightMargin, continuation, letterCase]

def names (k : Key) : List Text := k.other.toList ++ [k.name]

/-- The name that is asked for if the setting is missing. -/
def preferred (k : Key) : Text := k.other.getD k.name

/-- The name under which a setting is given, and its value. -/
def find? (k : Key) (settings : Settings) : Option (Text × Datum) :=
  k.names.findSome? fun n => settings.find? (·.1 == n)

end Key

/-! ## Numbers -/

/-- Drops the zeros in front of a number, with the underscores among them. A zero in front of a
point or at the end stays, and a minus may follow the zeros. -/
def dropLeadingZeros? (t : Text) : Option Text :=
  match t with
  | '0' :: cs =>
    let zeros := cs.takeWhile fun c => c == '0' || c == '_'
    match cs.drop zeros.length with
    | [] => some (('0' :: zeros).drop zeros.length)
    | c :: rest =>
      if c.isDigit || c == '-' then some (c :: rest)
      else if c == '.' then some (('0' :: zeros).drop zeros.length ++ c :: rest)
      else none
  | c :: _ => if c.isDigit then some t else none
  | [] => none

/-- Drops a point and the zeros behind it, if nothing else is behind it. -/
def dropZeroFraction (t : Text) : Text :=
  match t.span (· != '.') with
  | (whole, '.' :: c :: fraction) => if (c :: fraction).all (· == '0') then whole else t
  | _ => t

/-- A number in digits without a zero in front; a single underscore may stand between any two of
them. -/
def digits? (t : Text) : Option Nat :=
  match Text.groupedDigits? asciiDigit? t with
  | some (0 :: _ :: _) => none
  | ds => ds.map Text.ofDigits

/-- A number with a minus that was found behind zeros, or without one. -/
def remaining? : Text → Option Int
  | '-' :: '_' :: t => (digits? t).map fun n => -(n : Int)
  | '-' :: t => (digits? t).map fun n => -(n : Int)
  | t => (digits? t).map Int.ofNat

/-- The whole number that a text spells in a setting. Zeros in front of it are dropped only once,
behind its sign. -/
def number? (t : Text) : Option Int :=
  let plain (u : Text) : Option Text := (dropLeadingZeros? u).map dropZeroFraction
  match Text.dropPadding t with
  | '-' :: u => do return -((← digits? (← plain u)) : Int)
  | '+' :: '-' :: _ => none
  | '+' :: u => do remaining? (← plain u)
  | u => do remaining? (← plain u)

/-- The whole number that a setting stands for. -/
def toInt : Datum → Except ProblemKind Int
  | .int n => .ok n
  | .bool b => .ok (if b then 1 else 0)
  | .decimal m p =>
    let scale : Int := Datum.scale p
    if m % scale = 0 then .ok (m / scale) else .error .fractional
  | .text t =>
    match number? t with
    | some n => .ok n
    | none => .error .unreadableNumber
  | _ => .error .notNumber

def toColumn (least : Nat) (d : Datum) : Except ProblemKind Nat :=
  match toInt d with
  | .error e => .error e
  | .ok n => if n < least then .error (.tooSmall least) else .ok n.toNat

/-! ## Other settings -/

def toContinuation : Datum → Except ProblemKind Char
  | .text [c] => .ok c
  | .text [] => .error .emptyText
  | .text _ => .error .longText
  | _ => .error .notText

/-- A case may be named without its star. -/
def toLetterCase : Datum → Except ProblemKind LetterCase
  | .text t =>
    let name := Text.upper (Text.trim t)
    let starred := if name.isEmpty || name.head? == some '*' then name else '*' :: name
    match LetterCase.ofName? starred with
    | some l => .ok l
    | none => .error .unknownCase
  | _ => .error .unknownCase

/-- A setting that has to be given, unless there is a default for it. -/
def read {α : Type} (settings : Settings) (k : Key) (default : Option α)
    (convert : Datum → Except ProblemKind α) : Except Problem α :=
  match k.find? settings with
  | some (key, d) =>
    match convert d with
    | .ok a => .ok a
    | .error kind => .error ⟨kind, some key⟩
  | none =>
    match default with
    | some a => .ok a
    | none => .error ⟨.missing, some k.preferred⟩

/-- The keys that name no setting, or one that is also given under its other name. -/
def unusedKeys (settings : Settings) : List Text :=
  let used := Key.all.filterMap fun k => (k.find? settings).map (·.1)
  (settings.map (·.1)).filter (!used.contains ·)

def known (settings : Settings) : Settings :=
  settings.filter fun s => Key.all.any fun k => k.names.contains s.1

def problemOf {α : Type} : Except Problem α → List Problem
  | .error p => [p]
  | .ok _ => []

end Settings

namespace Format

open Settings in
def ofSettings (settings : Settings) : Except (List Problem) Format :=
  let label := read settings Key.labelColumn none (toColumn 0)
  let command := read settings Key.commandColumn none (toColumn 0)
  let keyword := read settings Key.keywordColumn none (toColumn 0)
  let indent := read settings Key.indentColumn none (toColumn 0)
  let margin := read settings Key.rightMargin none (toColumn 1)
  let continuation := read settings Key.continuation none toContinuation
  let letterCase := read settings Key.letterCase (some .asWritten) toLetterCase
  let unused := (unusedKeys settings).map fun key => (⟨.unknownKey, some key⟩ : Problem)
  let problems := problemOf label ++ problemOf command ++ problemOf keyword ++ problemOf indent ++
    problemOf margin ++ problemOf continuation ++ problemOf letterCase ++ unused
  match label, command, keyword, indent, margin, continuation, letterCase, unused with
  | .ok label, .ok command, .ok keyword, .ok indent, .ok margin, .ok continuation,
    .ok letterCase, [] =>
    if hi : margin < indent - 1 + commentRoom then .error [⟨.noRoom margin indent, none⟩]
    else if hc : margin ≤ command then .error [⟨.marginAtCommand margin command, none⟩]
    else
      .ok {
        labelColumn := label, commandColumn := command, keywordColumn := keyword
        indentColumn := indent, rightMargin := margin, continuation, letterCase
        indent_fits := by omega
        command_fits := by omega }
  | _, _, _, _, _, _, _, _ => .error problems

/-- The format that a table from some source describes. Keys that name no setting do not
matter. -/
def ofTable (source : Text) (settings : Settings) : Except FormatError Format :=
  match ofSettings settings.known with
  | .ok f => .ok f
  | .error problems => .error (.invalid source problems)

/-! ## Editor preferences -/

/-- The preferences of an editor and the settings that they stand for. -/
def preferenceKeys : List (Text × Settings.Key) :=
  [("formatLabelPosition".toList, .labelColumn), ("formatCmdPosition".toList, .commandColumn),
    ("formatKwdPosition".toList, .keywordColumn), ("formatContinuePosition".toList, .indentColumn),
    ("formatRightMargin".toList, .rightMargin), ("formatCase".toList, .letterCase)]

/-- The format that the preferences of an editor describe. Lines go on after a `+`, unless the
preferences say otherwise. -/
def ofPreferences (preferences : Settings) : Except FormatError Format :=
  let columns := preferenceKeys.filterMap fun (name, key) =>
    (Datum.field? preferences name).map fun d => (key.name, d)
  let continuation := (Datum.field? preferences "continuationChar".toList).getD (.text ['+'])
  ofTable "prompter settings".toList (columns ++ [(Settings.Key.continuation.name, continuation)])

end Format

end ControlLanguage
