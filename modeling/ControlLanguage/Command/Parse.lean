import ControlLanguage.Command.OfTokens
import ControlLanguage.Command.Source

/-!
# Commands from text

A command text is one logical line. Its label and its comment are taken off
before the tokens are read.
-/

namespace ControlLanguage

def Command.parse (text : Text) : Except SyntaxError Command :=
  let (label, rest) := takeLabel text
  let (body, comment) := takeComment rest
  match Token.check (some body) (Token.ofText body) with
  | .error e => .error e
  | .ok (name, tokens) =>
    match Command.ofTokens (some body) name tokens with
    | .error e => .error e
    | .ok c => .ok { c with comment, label }

end ControlLanguage
