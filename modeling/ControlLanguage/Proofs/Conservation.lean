import ControlLanguage.Proofs.Spelling.Command

/-!
# Nothing is lost in reading

A command is read from the tokens of a text and written as its canonical
text. The tokens of both are the same one by one, spaces aside, but for the
names, which are written in upper case.
-/

namespace ControlLanguage

open Token

/-- The canonical text of a command has the tokens that the command was read from, with its names in
upper case. -/
theorem Command.solid_ofText_text {source source' : Option Text} {text : Text} {name : Token}
    {tokens : List Token} {c : Command} (h : check source (ofText text) = .ok (name, tokens))
    (hc : ofTokens source' name tokens = .ok c) :
    c.nameMarks.length = (solid (ofText text)).length ∧
      solid (ofText c.text) = upperMarked c.nameMarks (solid (ofText text)) := by
  have hread := readFrom_of_ofTokens h hc
  obtain ⟨rs, us, hrs, htext, hb⟩ := hread.ofText_text
  have hname : name.isSpace = false := isSpace_of_kind hread.command (by decide)
  have hmarks : c.nameMarks = true :: nameMarksOfBindings c.bindings := by cases c; rfl
  rw [hread.tokens, htext, solid_cons hname, solid_cons (t := ⟨.command, c.name, 0⟩) rfl,
    solid_congr hb, hmarks,
    upperMarked_cons, ← hrs.named]
  refine ⟨congrArg (· + 1) hrs.count, ?_⟩
  rw [if_pos rfl, bare, bare, hread.command]
  exact congrArg (fun n => (TokenKind.command, n) :: solid rs) hread.name_eq

theorem Command.solid_ofText_text_nested :
    let text := "a b( c  d(1) )".toList
    let tokens := (ofText text).tail
    let c : Command := ⟨['A'], [⟨['B'], .nested ⟨['C'], [⟨['D'], .scalar ['1']⟩], none, none⟩⟩], none, none⟩
    check none (ofText text) = .ok (⟨.command, ['a'], 0⟩, tokens) ∧
      ofTokens none ⟨.command, ['a'], 0⟩ tokens = .ok c ∧
      c.nameMarks.length = (solid (ofText text)).length ∧
      solid (ofText c.text) = upperMarked c.nameMarks (solid (ofText text)) := by
  have h : check none (ofText "a b( c  d(1) )".toList) =
      .ok (⟨.command, ['a'], 0⟩, (ofText "a b( c  d(1) )".toList).tail) := by with_unfolding_all rfl
  have hc : ofTokens none ⟨.command, ['a'], 0⟩ (ofText "a b( c  d(1) )".toList).tail = .ok
      ⟨['A'], [⟨['B'], .nested ⟨['C'], [⟨['D'], .scalar ['1']⟩], none, none⟩⟩], none, none⟩ := by
    with_unfolding_all rfl
  exact ⟨h, hc, solid_ofText_text h hc⟩

end ControlLanguage
