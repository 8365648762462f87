import ControlLanguage.Token.OfText

/-!
# Literals

A value that a user typed is written into a command as it is if the command
can read it that way, and as a literal in single quotes otherwise. Quotes
inside a literal are doubled. `literal` tells which of the two, by the form
of the value and by the declared type and special values of the parameter.
-/

namespace ControlLanguage

/-- Types whose values are commands, which are never quoted. -/
def verbatimTypes : List Text := ["CMD", "CMDSTR"].map String.toList

/-- Types whose values are names of objects. -/
def objectTypes : List Text :=
  ["NAME", "SNAME", "CNAME", "PNAME", "GENERIC", "VARNAME"].map String.toList

/-- The name of a declared type: upper case, without the stars in front. -/
def typeName (declared : Text) : Text := (Text.upper (Text.trim declared)).dropWhile (· == '*')

/-- Whether a text of two characters or more starts and ends with the given one. -/
def isEnclosed (quote : Char) (t : Text) : Bool :=
  2 ≤ t.length && t.head? == some quote && t.getLast? == some quote

def isQuoted (t : Text) : Bool := isEnclosed '\'' t && endOfLiteral t == (t.length, true)

/-- A name of at most eleven characters in which periods may follow the first one. -/
def isPeriodName : Text → Bool
  | [] => false
  | c :: cs => cs.length ≤ 10 && startsName c && cs.all fun d => continuesName d || d == '.'

/-- What a parameter for names takes: a dotted name, a variable or a quoted text. -/
def isNameValue (t : Text) : Bool :=
  match Text.trim t with
  | '&' :: name => isPeriodName name
  | t => isEnclosed '\'' t || isEnclosed '"' t || isPeriodName t

/-- A token that makes the variable beside it part of an expression. -/
def joinsVariable (t : Option Token) : Bool :=
  t.any fun t => t.kind == .operator || t.kind == .function

/-- Whether some token, after the token `prev`, can only be part of an expression: a symbolic
operator, a function in front of its arguments, or a variable beside an operator or function. -/
def hasOperation (prev : Option Token) : List Token → Bool
  | [] => false
  | t :: ts =>
    let here :=
      match t.kind with
      | .operator => 2 ≤ t.text.length && t.text.head? == some '*'
      | .function => ts.head?.any (·.kind == .parenOpen)
      | .variableRef => joinsVariable prev || joinsVariable ts.head?
      | _ => false
    here || hasOperation (some t) ts

/-- Whether a text is an expression: in parentheses, or with an operation in it. -/
def isExpression (t : Text) : Bool :=
  let t := Text.trim t
  (t.head? == some '(' && t.getLast? == some ')') ||
    hasOperation none ((Token.ofText t).filter (!·.isSpace))

def quote (t : Text) : Text :=
  '\'' :: t.flatMap (fun c => if c == '\'' then ['\'', '\''] else [c]) ++ ['\'']

/-- Values that stand without quotes: variables, hexadecimal literals, special values, whole
quoted texts and names. `t` is trimmed. -/
def standsBare (allowed : List Text) (type t : Text) : Bool :=
  Word.isVariable t || Word.isHexadecimal t || t.head? == some '*' ||
    allowed.any (fun v => Text.upper v == Text.upper t) || isQuoted t || isEnclosed '"' t ||
    Word.isQualified t || Word.isSimpleName t || (objectTypes.contains type && isNameValue t)

/-- A value as it is written into a command. -/
def literal (value : Text) (allowed : List Text := []) (declared : Text := []) : Text :=
  let t := Text.trim value
  let type := typeName declared
  if verbatimTypes.contains type || standsBare allowed type t then t
  else if isExpression t then value
  else if t = [] ∨ t = ['\'', '\''] then []
  else if Word.isNumber t then t
  else if isEnclosed '\'' t then quote (t.drop 1).dropLast
  else quote t

end ControlLanguage
