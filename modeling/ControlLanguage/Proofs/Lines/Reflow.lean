import ControlLanguage.Proofs.Lines.ReadBack
import ControlLanguage.Proofs.Lines.Spelled

/-!
# Laying out again

The lines of a command without a comment, joined again, are not its
canonical text, but they have the same label, name and units. They are read
as a command that is laid out in the same lines.
-/

namespace ControlLanguage

open Token

/-! ## The first line -/

section
variable {f : Format} {c : Command} {rest : Text}

theorem Format.takeLabel_headLine (hcase : f.letterCase = .asWritten) (hname : Word.isCommand c.name = true)
    (hu : c.name.upper = c.name)
    (hlabel : ∀ l, c.label = some l → Word.isSimpleName l = true ∧ l.upper = l)
    (hr : rest = [] ∨ ∃ r, rest = ' ' :: r) : takeLabel (f.headLine c ++ rest) = (c.label, c.name ++ rest) := by
  have happly : ∀ t, f.letterCase.apply t = t := by
    intro t; rw [hcase]; rfl
  have hn := Word.ne_nil_of_isCommand hname
  have hspace : ∀ d ∈ c.name, isSpace d = false := by
    intro d hd
    rw [← hu] at hd
    exact not_isSpace_of_mem_upper hname hd
  rw [headLine, happly]
  cases hl : c.label with
  | none =>
    rw [show Call.part? none = none from rfl, List.append_assoc, takeLabel_blanks]
    exact takeLabel_of_not_mem hn hspace (Word.not_mem_of_isCommand hname (by decide) (by decide) (by decide)) hr
  | some l =>
    obtain ⟨hsimple, hupper⟩ := hlabel l hl
    have hpart : Call.part? (some l) = some l := by
      cases l with
      | nil => exact absurd hsimple (by decide)
      | cons => rfl
    rw [hpart]
    simp only [happly, List.append_assoc, List.singleton_append]
    rw [takeLabel_blanks]
    exact (takeLabel_label hsimple _ (trimLeft_append hn hspace rest)).trans (by rw [hupper])

end

/-! ## The units -/

namespace Token

theorem readFrom_blanks {t : Text} (h : next isBlank t = false) (n pos : Nat) :
    readFrom false pos (Text.blanks (n + 1) ++ t) = ⟨.space, [' '], pos⟩ :: readFrom false (pos + 1 + n) t := by
  have hlen : ((Text.blanks n ++ t).takeWhile isBlank).length = n := by
    have : ((Text.blanks n ++ t).takeWhile isBlank).length = (Text.blanks n).length := by
      refine takeWhile_append_length_iff.mpr ⟨List.all_eq_true.mpr ?_, h⟩
      intro c hc
      rw [List.eq_of_mem_replicate hc]; rfl
    rw [this, Text.blanks, List.length_replicate]
  rw [show Text.blanks (n + 1) ++ t = ' ' :: (Text.blanks n ++ t) from rfl, readFrom_cons, kindAt_blank (by decide),
    hlen, if_pos rfl]
  congr 2
  refine List.drop_left' ?_
  exact List.length_replicate

end Token

theorem ReadFrom.ofText_units {text rest : Text} {name : Token} {ts : List Token} {c : Command}
    (h : ReadFrom text name ts c)
    (hr : c.units = [] ∧ rest = [] ∨ c.units ≠ [] ∧ ∃ n, rest = Text.blanks (n + 1) ++ Text.unwords c.units) :
    ∃ rs us, Value.Respelled trimSpaces false 0 ts c.bindings [] rs ∧
      ofText (c.name ++ rest) = ⟨.command, c.name, 0⟩ :: us ∧ us.map bare = rs.map bare := by
  obtain ⟨rs, hrs⟩ := h.respell tidying_trimSpaces
  have hj : joinTokens rs = c.units.flatMap (' ' :: ·) := hrs.joined.trans (h.bindings.flatMap_text h.reads)
  refine ⟨rs, readFrom false c.name.length rest, hrs, ofText_command h.upper_name.1 ?_, ?_⟩
  · rcases hr with ⟨-, rfl⟩ | ⟨-, n, rfl⟩ <;> rfl
  · rcases hr with ⟨hn, rfl⟩ | ⟨hn, n, rfl⟩
    · rw [hn] at hj
      rcases hrs.head with ⟨rfl, -⟩ | ⟨u, us, rfl⟩
      · rw [readFrom_nil]
      · cases hj
    · obtain ⟨v, vs, hv⟩ := List.exists_cons_of_ne_nil hn
      rw [hv, ← cons_unwords, ← hv] at hj
      rcases hrs.head with ⟨rfl, -⟩ | ⟨u, us, rfl⟩
      · cases hj
      · have hj : joinTokens (u :: us) = Text.unwords c.units := (List.cons.inj hj).2
        obtain ⟨hblank, hreads⟩ := hrs.reads
        have hnext := ((stands_space_iff rfl).mp hblank).2
        rw [List.append_nil] at hnext
        rw [← hj, readFrom_blanks hnext, List.map_cons, List.map_cons, bare_readFrom hreads]
        rfl

theorem units_eq_of_spelled {m c : Command}
    (h : mapTokensOfBindings unplacing m.bindings =
      mapTokensOfBindings unplacing (mapTokensOfBindings (inside trimSpaces) c.bindings)) : m.units = c.units := by
  have hplaces := fun bs => unitsOfBindings_mapTokens unitsOfExpression_unplacing bs
  rw [Command.units, Command.units, ← hplaces, h, hplaces, unitsOfBindings_mapTokens unitsOfExpression_inside]

namespace Format

variable {f : Format} {c m : Command} {threshold : Int}

theorem layout_congr (hcase : f.letterCase = .asWritten) (hc : c.comment = none) (hm : m.comment = none)
    (hlabel : m.label = c.label) (hname : m.name = c.name) (hunits : m.units = c.units) :
    f.layout m threshold = f.layout c threshold := by
  have hhead : f.headLine m = f.headLine c := by
    rw [headLine, headLine, hlabel, hname]
  rw [layout_eq hcase hc, layout_eq hcase hm, hhead, hunits]

theorem headGap_eq_blanks (f : Format) (line : Text) : ∃ n, f.headGap line = Text.blanks (n + 1) := by
  obtain ⟨n, hn⟩ := Nat.exists_eq_add_of_le' (Nat.le_max_right (f.keywordColumn - 1 - line.length) 1)
  exact ⟨n, by rw [headGap, hn]⟩

/-- The joined lines of a command without a comment are read as a command that has the same lines. -/
theorem layout_layout {text : Text} (hsp : ∀ ch ∈ text, isSpace ch = true → isBlank ch = true)
    (hparse : Command.parse text = .ok c) (hc : c.comment = none) (hcase : f.letterCase = .asWritten)
    (hq : ∀ n ∈ (f.layout c threshold).notes, n.level ≠ .warning) (source source' : Option Text) :
    ∃ rest name tokens m, takeLabel (joinLines (f.layout c threshold).value) = (c.label, rest) ∧
      Token.check source (ofText rest) = .ok (name, tokens) ∧
      Command.ofTokens source' name tokens = .ok m ∧ m.name = c.name ∧ m.units = c.units ∧
      (f.layout { m with label := c.label } threshold).value = (f.layout c threshold).value := by
  obtain ⟨body, name, ts, d, hl, hd, hname, hbs⟩ := readFrom_of_parse hparse hc
  obtain ⟨htight, hu⟩ := tight_units_of_parse hsp hparse hc
  have hunits : d.units = c.units := by rw [Command.units, Command.units, hbs]
  obtain ⟨rest, hjoin, hrest⟩ : ∃ rest, joinLines (f.layout c threshold).value = f.headLine c ++ rest ∧
      (c.units = [] ∧ rest = [] ∨ c.units ≠ [] ∧ ∃ n, rest = Text.blanks (n + 1) ++ Text.unwords c.units) := by
    rcases layout_writes hcase hc htight hu hq with ⟨hn, hv⟩ | ⟨hn, s, p, hs, hv, hw⟩
    · exact ⟨[], by rw [hv, joinLines_singleton, List.append_nil], .inl ⟨hn, rfl⟩⟩
    · refine ⟨s ++ Text.unwords c.units, ?_, .inr ⟨hn, ?_⟩⟩
      · have := hw.joined []
        rwa [List.nil_append, List.nil_append, joinLines_singleton, ← hv] at this
      · rcases hs with rfl | rfl
        · obtain ⟨n, hn⟩ := headGap_eq_blanks f (f.headLine c)
          exact ⟨n, by rw [hn]⟩
        · exact ⟨0, rfl⟩
  have hlabel : takeLabel (f.headLine c ++ rest) = (c.label, c.name ++ rest) := by
    refine takeLabel_headLine hcase ?_ ?_ (fun l h => label_of_takeLabel (t := text) ?_) ?_
    · rw [hname]; exact hd.upper_name.1
    · rw [hname]; exact hd.upper_name.2
    · rw [hl]; exact h
    · rcases hrest with ⟨-, rfl⟩ | ⟨-, n, rfl⟩
      · exact .inl rfl
      · exact .inr ⟨_, rfl⟩
  -- behind the name stand the tokens of `c` without the blanks inside of parentheses
  rw [← hunits] at hrest
  obtain ⟨rs, us, hrs, htokens, hb⟩ := hd.ofText_units hrest
  obtain ⟨m, hm, hmname, he⟩ := hd.reread hrs htokens hb
  rw [← hname] at hm hmname
  have hmunits : m.units = c.units := (units_eq_of_spelled he).trans hunits
  refine ⟨_, _, us, m, by rw [hjoin, hlabel], hm.check source, hm.ofTokens source', hmname, hmunits, ?_⟩
  rw [layout_congr (m := { m with label := c.label }) hcase hc hm.comment rfl hmname hmunits]

theorem layout_layout_labelled :
    let f : Format := ⟨1, 1, 0, 1, 9, '+', .asWritten, by decide, by decide⟩
    let text := "l: a ( &x ) b('cc dd')".toList
    let c : Command :=
      ⟨['A'],
        [⟨placeholder 1, .expression [⟨.space, [' '], 3⟩, ⟨.variableRef, ['&', 'x'], 4⟩, ⟨.space, [' '], 6⟩] true⟩,
          ⟨['B'], .scalar "'cc dd'".toList⟩],
        none, some ['L']⟩
    Command.parse text = .ok c ∧
      ∃ rest name tokens m, takeLabel (joinLines (f.layout c 5).value) = (c.label, rest) ∧
        Token.check none (ofText rest) = .ok (name, tokens) ∧
        Command.ofTokens none name tokens = .ok m ∧ m.name = c.name ∧ m.units = c.units ∧
        (f.layout { m with label := c.label } 5).value = (f.layout c 5).value := by
  intro f text c
  have hparse : Command.parse text = .ok c := by with_unfolding_all rfl
  have hnotes : (f.layout c 5).notes = [] :=
    of_runLayout (n := 40) (by decide +kernel) (by decide) (fun _ h => by cases h)
  exact ⟨hparse, layout_layout (by simp [text]; decide) hparse rfl rfl (by simp [hnotes]) none none⟩

end Format

end ControlLanguage
