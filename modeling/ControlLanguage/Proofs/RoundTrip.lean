import ControlLanguage.Proofs.Spelling.Command

/-!
# Reading the canonical text

The canonical text of a command that has been read is read as the same
command: with the same parameters and the same values at every depth. Only
the places of the tokens are others.
-/

namespace ControlLanguage

open Token

theorem joinTokens_map_unplaced (ts : List Token) : joinTokens (ts.map unplaced) = joinTokens ts := by
  rw [joinTokens, List.flatMap_map]; rfl

theorem Command.text_congr {c m : Command} (h : m.unplaced = c.unplaced) : m.text = c.text := by
  have hbody : ∀ d : Command, callText d.unplaced = d.body := by
    intro d
    rw [← callText_eq_body]
    exact callText_mapTokens (f := unplacing) (fun _ => joinTokens_map_unplaced) d
  have hlabel : ∀ d : Command, d.unplaced.label = d.label := by
    intro d; rw [Command.unplaced, mapTokensOfCall_eq_mk]
  rw [Call.text, Call.text, ← hbody, ← hbody, ← hlabel, ← hlabel c, h]

/-- The canonical text of a command is read as that command. -/
theorem Command.ofTokens_text {source source' : Option Text} {text : Text} {name : Token}
    {tokens : List Token} {c : Command} (h : check source (ofText text) = .ok (name, tokens))
    (hc : ofTokens source' name tokens = .ok c) (source₁ source₂ : Option Text) :
    ∃ name' tokens' m, check source₁ (ofText c.text) = .ok (name', tokens') ∧
      ofTokens source₂ name' tokens' = .ok m ∧ m.unplaced = c.unplaced ∧ m.text = c.text := by
  have hread := readFrom_of_ofTokens h hc
  obtain ⟨rs, us, hrs, htext, hb⟩ := hread.ofText_text
  obtain ⟨m, hm, hname, he⟩ := hread.reread hrs htext hb
  rw [mapTokensOfBindings_eq (f := inside id) (by intro w ts; cases w <;> rfl)] at he
  have heq : m.unplaced = c.unplaced := by
    rw [Command.unplaced, Command.unplaced, mapTokensOfCall_eq_mk, mapTokensOfCall_eq_mk, he, hname, hm.comment,
      hm.label, hread.comment, hread.label]
  exact ⟨_, us, m, hm.check source₁, hm.ofTokens source₂, heq, text_congr heq⟩

theorem Command.ofTokens_text_nested :
    let text := "a b( c  d(1) )".toList
    let tokens := (ofText text).tail
    let c : Command := ⟨['A'], [⟨['B'], .nested ⟨['C'], [⟨['D'], .scalar ['1']⟩], none, none⟩⟩], none, none⟩
    check none (ofText text) = .ok (⟨.command, ['a'], 0⟩, tokens) ∧
      ofTokens none ⟨.command, ['a'], 0⟩ tokens = .ok c ∧
      ∃ name' tokens' m, check none (ofText c.text) = .ok (name', tokens') ∧
        ofTokens none name' tokens' = .ok m ∧ m.unplaced = c.unplaced ∧ m.text = c.text := by
  have h : check none (ofText "a b( c  d(1) )".toList) =
      .ok (⟨.command, ['a'], 0⟩, (ofText "a b( c  d(1) )".toList).tail) := by with_unfolding_all rfl
  have hc : ofTokens none ⟨.command, ['a'], 0⟩ (ofText "a b( c  d(1) )".toList).tail = .ok
      ⟨['A'], [⟨['B'], .nested ⟨['C'], [⟨['D'], .scalar ['1']⟩], none, none⟩⟩], none, none⟩ := by
    with_unfolding_all rfl
  exact ⟨h, hc, ofTokens_text h hc none none⟩

end ControlLanguage
