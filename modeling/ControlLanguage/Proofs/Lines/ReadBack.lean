import ControlLanguage.Command.Parse
import ControlLanguage.Lines.Layout
import ControlLanguage.Proofs.Lines.Loops
import ControlLanguage.Proofs.Lines.Put
import ControlLanguage.Proofs.Lines.Units
import ControlLanguage.Proofs.Source
import ControlLanguage.Proofs.Spelling.Command

/-!
# Reading a layout back

The lines of a command without a comment, joined again, are its first line
and its units. Nothing is lost at the ends of lines, inside of literals or
between units.
-/

namespace ControlLanguage

open Token

/-! ## What has been read -/

theorem readFrom_of_parse {text : Text} {c : Command} (h : Command.parse text = .ok c) (hc : c.comment = none) :
    ∃ rest name ts m, takeLabel text = (c.label, rest) ∧ ReadFrom (Text.trimRight rest) name ts m ∧
      c.name = m.name ∧ c.bindings = m.bindings := by
  obtain ⟨rest, body, name, ts, m, hl, hb, hm, hname, hbs⟩ := exists_readFrom h
  rw [hc] at hb
  obtain rfl := takeComment_none hb
  exact ⟨rest, name, ts, m, hl, hm, hname, hbs⟩

theorem tight_units_of_parse {text : Text} {c : Command}
    (hsp : ∀ ch ∈ text, isSpace ch = true → isBlank ch = true) (h : Command.parse text = .ok c)
    (hc : c.comment = none) : Tight c.name ∧ ∀ u ∈ c.units, Tight u := by
  obtain ⟨rest, name, ts, m, hl, hm, hname, hbs⟩ := readFrom_of_parse h hc
  refine ⟨?_, ?_⟩
  · rw [hname, hm.name_eq]; exact tight_upper hm.isCommand
  · rw [Command.units, hbs]
    refine hm.bindings.tight_units hm.reads fun t ht hs => tight_of_ofText ?_ ?_ hm.tokens ht hs
    · obtain ⟨s, hs, -⟩ := Text.trimRight_prefix rest
      have hsuffix := takeLabel_suffix text
      rw [hl] at hsuffix
      intro ch hch
      refine hsp ch (hsuffix.subset ?_)
      rw [hs]; exact List.mem_append_left _ hch
    · intro ch hch
      rcases closes_trimRight rest with he | ⟨cs, d, he, hd⟩
      · rw [he] at hch; cases hch
      · rw [he, List.getLast?_concat] at hch
        cases hch; exact hd

/-! ## What is written -/

namespace Format

section
variable {f : Format} {c : Command} {threshold : Int}

theorem layout_eq (hcase : f.letterCase = .asWritten) (hc : c.comment = none) : f.layout c threshold =
    ⟨(f.putAll threshold false (f.headLine c) (f.headGap (f.headLine c)) c.units).notes,
      (f.putAll threshold false (f.headLine c) (f.headGap (f.headLine c)) c.units).value.lines ++
        [(f.putAll threshold false (f.headLine c) (f.headGap (f.headLine c)) c.units).value.line]⟩ := by
  have hunits : c.units.map f.letterCase.apply = c.units := by
    rw [hcase]; exact List.map_id _
  rw [layout, hc, hunits]
  exact congrArg (Logged.mk · _) (List.append_nil _)

theorem closes_headLine (hcase : f.letterCase = .asWritten) (h : Closes c.name) : Closes (f.headLine c) := by
  have hname : f.letterCase.apply c.name = c.name := by rw [hcase]; rfl
  rw [headLine, hname]
  split
  · exact h.append _
  · exact h.append _

/-- The units of a command are written behind its first line if no unit is cut by force, or if none can
be cut in front of a blank. -/
theorem layout_writes_units (hcase : f.letterCase = .asWritten) (hc : c.comment = none) (hname : Tight c.name)
    (hu : ∀ u ∈ c.units, Tight u)
    (hq : Note.Quiet (f.layout c threshold).notes ∨ ∀ u ∈ c.units, f.Compact u) :
    c.units = [] ∧ (f.layout c threshold).value = [f.headLine c] ∨
    c.units ≠ [] ∧ ∃ s p, (s = f.headGap (f.headLine c) ∨ s = [' ']) ∧
      (f.layout c threshold).value = p.lines ++ [p.line] ∧
      Writes f (f.headLine c) (s ++ Text.unwords c.units) p := by
  rw [layout_eq hcase hc] at hq ⊢
  by_cases hn : c.units = []
  · rw [hn]
    exact .inl ⟨rfl, rfl⟩
  · have hgap : ∀ ch ∈ f.headGap (f.headLine c), ch = ' ' := fun _ h => List.eq_of_mem_replicate h
    obtain ⟨s, hs, hw⟩ := putAll_writes hn (closes_headLine hcase hname.closes) hgap hu hq
    exact .inr ⟨hn, s, _, hs, rfl, hw⟩

theorem layout_writes (hcase : f.letterCase = .asWritten) (hc : c.comment = none) (hname : Tight c.name)
    (hu : ∀ u ∈ c.units, Tight u) (hq : Note.Quiet (f.layout c threshold).notes) :
    c.units = [] ∧ (f.layout c threshold).value = [f.headLine c] ∨
    c.units ≠ [] ∧ ∃ s p, (s = f.headGap (f.headLine c) ∨ s = [' ']) ∧
      (f.layout c threshold).value = p.lines ++ [p.line] ∧ Writes f (f.headLine c) (s ++ Text.unwords c.units) p :=
  layout_writes_units hcase hc hname hu (.inl hq)

/-- The lines of a command without a comment are continued, and joined again they are its first line
and its units. -/
theorem joinLines_layout {text : Text} (hsp : ∀ ch ∈ text, isSpace ch = true → isBlank ch = true)
    (hparse : Command.parse text = .ok c) (hc : c.comment = none) (hcase : f.letterCase = .asWritten)
    (hq : ∀ n ∈ (f.layout c threshold).notes, n.level ≠ .warning) :
    (∀ line ∈ (f.layout c threshold).value.dropLast, line.getLast? = some f.continuation) ∧
      (c.units = [] → joinLines (f.layout c threshold).value = f.headLine c) ∧
      (c.units ≠ [] → ∃ s, (s = f.headGap (f.headLine c) ∨ s = [' ']) ∧
        joinLines (f.layout c threshold).value = f.headLine c ++ s ++ Text.unwords c.units) := by
  obtain ⟨hname, hu⟩ := tight_units_of_parse hsp hparse hc
  rcases layout_writes hcase hc hname hu hq with ⟨hn, hv⟩ | ⟨hn, s, p, hs, hv, hw⟩
  · rw [hv]
    exact ⟨by simp, fun _ => joinLines_singleton _, fun h => absurd hn h⟩
  · refine ⟨?_, fun h => absurd h hn, fun _ => ⟨s, hs, ?_⟩⟩
    · rw [hv, List.dropLast_concat]; exact hw.continued
    · have := hw.joined []
      rw [List.nil_append, List.nil_append, joinLines_singleton] at this
      rw [hv, this, List.append_assoc]

end

theorem joinLines_layout_cut :
    let f : Format := ⟨1, 1, 0, 1, 9, '+', .asWritten, by decide, by decide⟩
    let text := "a b('cc dd')".toList
    let c : Command := ⟨['A'], [⟨['B'], .scalar "'cc dd'".toList⟩], none, none⟩
    Command.parse text = .ok c ∧
      (∀ line ∈ (f.layout c 5).value.dropLast, line.getLast? = some f.continuation) ∧
      (c.units = [] → joinLines (f.layout c 5).value = f.headLine c) ∧
      (c.units ≠ [] → ∃ s, (s = f.headGap (f.headLine c) ∨ s = [' ']) ∧
        joinLines (f.layout c 5).value = f.headLine c ++ s ++ Text.unwords c.units) := by
  intro f text c
  have hparse : Command.parse text = .ok c := by with_unfolding_all rfl
  have hnotes : (f.layout c 5).notes = [] :=
    of_runLayout (n := 40) (by decide +kernel) (by decide) (fun _ h => by cases h)
  exact ⟨hparse, joinLines_layout (by simp [text]; decide) hparse rfl rfl (by simp [hnotes])⟩

/-- Cuts by force lose nothing either in units in which blanks never fill a line, since none of them is
made in front of a blank. -/
theorem joinLines_layout_compact {f : Format} {c : Command} {threshold : Int} {text : Text}
    (hsp : ∀ ch ∈ text, isSpace ch = true → isBlank ch = true) (hparse : Command.parse text = .ok c)
    (hc : c.comment = none) (hcase : f.letterCase = .asWritten) (hcompact : ∀ unit ∈ c.units, f.Compact unit) :
    (∀ unit ∈ c.units, ∀ start, start + 1 < unit.length →
        unit[forcedCut unit start (f.room f.indent)]? ≠ some ' ') ∧
      (∀ line ∈ (f.layout c threshold).value.dropLast, line.getLast? = some f.continuation) ∧
      (c.units = [] → joinLines (f.layout c threshold).value = f.headLine c) ∧
      (c.units ≠ [] → ∃ s, (s = f.headGap (f.headLine c) ∨ s = [' ']) ∧
        joinLines (f.layout c threshold).value = f.headLine c ++ s ++ Text.unwords c.units) := by
  obtain ⟨hname, hu⟩ := tight_units_of_parse hsp hparse hc
  refine ⟨fun unit hunit start hs => (hcompact unit hunit).forcedCut (hu unit hunit).closes hs, ?_⟩
  have hq : Note.Quiet (f.layout c threshold).notes ∨ ∀ unit ∈ c.units, f.Compact unit := .inr hcompact
  rcases layout_writes_units hcase hc hname hu hq with ⟨hn, hv⟩ | ⟨hn, s, p, hs, hv, hw⟩
  · rw [hv]
    exact ⟨by simp, fun _ => joinLines_singleton _, fun h => absurd hn h⟩
  · rw [hv]
    refine ⟨?_, fun h => absurd h hn, fun _ => ⟨s, hs, ?_⟩⟩
    · rw [List.dropLast_concat]; exact hw.continued
    · rw [hw.joinLines_eq, List.append_assoc]

theorem joinLines_layout_compact_literal :
    let f : Format := ⟨1, 1, 0, 3, 9, '+', .asWritten, by decide, by decide⟩
    let text := "a b('cc    dd e')".toList
    let c : Command := ⟨['A'], [⟨['B'], .scalar "'cc    dd e'".toList⟩], none, none⟩
    Command.parse text = .ok c ∧ (f.layout c).notes ≠ [] ∧
      (f.layout c).value = ["A +".toList, "  B('c+".toList, "  c    d+".toList, "  d e')".toList] ∧
      (∀ unit ∈ c.units, f.Compact unit) ∧
      (∀ unit ∈ c.units, ∀ start, start + 1 < unit.length →
        unit[forcedCut unit start (f.room f.indent)]? ≠ some ' ') ∧
      (∀ line ∈ (f.layout c).value.dropLast, line.getLast? = some f.continuation) ∧
      (c.units = [] → joinLines (f.layout c).value = f.headLine c) ∧
      (c.units ≠ [] → ∃ s, (s = f.headGap (f.headLine c) ∨ s = [' ']) ∧
        joinLines (f.layout c).value = f.headLine c ++ s ++ Text.unwords c.units) := by
  intro f text c
  have hparse : Command.parse text = .ok c := by with_unfolding_all rfl
  have hnotes : (f.layout c).notes = List.replicate 2 (.unitCut "B('cc    dd e')".toList 3 9) :=
    of_runLayout (n := 40) (by decide +kernel) (by decide) (fun _ h => by cases h)
  have hvalue : (f.layout c).value = ["A +".toList, "  B('c+".toList, "  c    d+".toList, "  d e')".toList] :=
    of_runLayout (n := 40) (by decide +kernel) (by decide) (fun _ h => by cases h)
  have hunits : c.units = ["B('cc    dd e')".toList] := rfl
  have hcompact : ∀ unit ∈ c.units, f.Compact unit := by
    rw [hunits]
    intro unit hunit h
    rw [List.mem_singleton.mp hunit] at h
    exact absurd (h.sublist.count_le ' ') (by decide)
  exact ⟨hparse, by rw [hnotes]; exact List.cons_ne_nil _ _, hvalue, hcompact,
    joinLines_layout_compact (by simp [text]; decide) hparse rfl rfl hcompact⟩

/-- A cut by force between blanks that fill a line is made in front of one of them, and they are lost. -/
theorem joinLines_layout_blanks :
    let f : Format := ⟨1, 1, 0, 1, 7, '+', .asWritten, by decide, by decide⟩
    let text := "CMD A('          x')".toList
    let c : Command := ⟨"CMD".toList, [⟨['A'], .scalar "'          x'".toList⟩], none, none⟩
    Command.parse text = .ok c ∧ (∃ note ∈ (f.layout c).notes, note.level = .warning) ∧
      joinLines (f.layout c).value = "CMD A('x')".toList ∧
      f.headLine c ++ [' '] ++ Text.unwords c.units = text := by
  intro f text c
  have hparse : Command.parse text = .ok c := by with_unfolding_all rfl
  have hnotes : (f.layout c).notes = List.replicate 7 (.unitCut "A('          x')".toList 1 7) :=
    of_runLayout (n := 40) (by decide +kernel) (by decide) (fun _ h => by cases h)
  have hjoined : joinLines (f.layout c).value = "CMD A('x')".toList :=
    of_runLayout (n := 40) (g := fun p => joinLines p.value) (by decide +kernel) (by decide) (fun _ h => by cases h)
  have hmem : Note.unitCut "A('          x')".toList 1 7 ∈ (f.layout c).notes := by
    rw [hnotes]; exact List.mem_cons_self ..
  exact ⟨hparse, ⟨_, hmem, rfl⟩, hjoined, rfl⟩

end Format

end ControlLanguage
