import ControlLanguage.Command.Basic

/-!
# Keywords for positional values

A command definition lists the keywords of its positional parameters. They
replace the placeholder names in order. A keyword that the call already has
is passed over, together with the value at its position.
-/

namespace ControlLanguage

namespace Call

variable {ν : Type}

/-- Names the positional bindings by the keywords left, except for those in `taken`. -/
def assign (taken : List Text) : List Text → List (Binding ν) → List (Binding ν)
  | _, [] => []
  | keywords, b :: bs =>
    if b.isPositional then
      match keywords with
      | [] => b :: assign taken [] bs
      | k :: ks =>
        (if taken.contains k.upper then b else ⟨k.upper, b.value⟩) :: assign taken ks bs
    else b :: assign taken keywords bs

/-- The call with keywords for its positional bindings, at most `limit` of them. -/
def assignKeywords (c : Call ν) (keywords : List Text) (limit : Option Int := none) : Call ν :=
  let given :=
    match limit with
    | some n => keywords.take n.toNat
    | none => keywords
  { c with bindings := assign (c.keywords.map Text.upper) given c.bindings }

end Call

end ControlLanguage
