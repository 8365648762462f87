import ControlLanguage.Text.Basic
import ControlLanguage.Text.Case.Table

/-!
# Letter case

The upper and the lower case of characters and of texts. Some letters expand:
the upper case of `ß` is `SS`. The lower case of a text is that of each of its
characters. A sigma at the end of a word is no exception: only the keys of
definitions are put in lower case as a whole, and no key that counts has one.
-/

namespace ControlLanguage

/-- The upper case of a character, which may have more than one character. -/
def upperChar (c : Char) : Text := (CaseRun.convert upperRuns c.toNat).map Char.ofNat

/-- The lower case of a character, which may have more than one character. -/
def lowerChar (c : Char) : Text := (CaseRun.convert lowerRuns c.toNat).map Char.ofNat

namespace Text

def upper (t : Text) : Text := t.flatMap upperChar

def lower (t : Text) : Text := t.flatMap lowerChar

theorem upper_append (s t : Text) : upper (s ++ t) = upper s ++ upper t :=
  List.flatMap_append

end Text

end ControlLanguage
