import Mathlib.Data.List.Chain
import ControlLanguage.Command.Parse
import ControlLanguage.Lines.Layout
import ControlLanguage.Proofs.Lines.Breaks
import ControlLanguage.Proofs.Lines.Loops
import ControlLanguage.Proofs.Lines.Rules
import ControlLanguage.Proofs.Token.Ends

/-!
# Units stay whole

A unit whose pieces between break points all fit on a line is never cut by
force, whatever stands on the line before it. It is cut at its break points
only, and if it has none it stands on one line. This holds of units that end
with no white space: a line that goes on loses all the white space at its end.
-/

namespace ControlLanguage

def StartsWith (t : Text) (lines : List Text) : Prop := ∃ line ∈ lines.head?, t <+: line

section
variable {t : Text} {lines : List Text}

theorem startsWith_cons {line : Text} (h : t <+: line) : StartsWith t (line :: lines) := ⟨line, rfl, h⟩

theorem StartsWith.append {line : Text} {more : List Text} (h : StartsWith t (lines ++ [line]))
    (hm : t <+: line → StartsWith t more) : StartsWith t (lines ++ more) := by
  cases lines with
  | nil =>
    obtain ⟨_, ⟨⟩, h⟩ := h
    exact hm h
  | cons => exact h

end

theorem Closes.drop {t : Text} {n : Nat} (h : Closes t) (hn : n < t.length) : Closes (t.drop n) := by
  obtain ⟨cs, c, rfl, hc⟩ := h
  rw [List.length_append, List.length_singleton] at hn
  exact ⟨cs.drop n, c, List.drop_append_of_le_length (by omega), hc⟩

theorem prefix_trimRight {s t : Text} (hs : Closes s) (h : s <+: t) : s <+: Text.trimRight t := by
  obtain ⟨cs, c, rfl, hc⟩ := hs
  obtain ⟨r, rfl⟩ := h
  obtain ⟨w, ht, hw⟩ := Text.trimRight_prefix (cs ++ [c] ++ r)
  have htrim : Text.trimRight (cs ++ [c] ++ r) <+: cs ++ [c] ++ r := ⟨w, ht.symm⟩
  refine List.prefix_of_prefix_length_le ⟨r, rfl⟩ htrim ?_
  -- what is trimmed is white space, and so it begins behind `c`
  refine Classical.byContradiction fun hlt => ?_
  have hget : (cs ++ [c] ++ r)[cs.length]? = some c := by simp
  have hle : (Text.trimRight (cs ++ [c] ++ r)).length ≤ cs.length := by
    rw [List.length_append] at hlt
    exact Nat.lt_succ_iff.mp (Nat.not_le.mp hlt)
  rw [ht, List.getElem?_append_right hle] at hget
  have := hw c (List.mem_of_getElem? hget)
  rw [hc] at this
  cases this

namespace Format

variable {f : Format} {threshold : Int} {t unit line : Text}

theorem prefix_endLine (ht : Closes t) (h : t <+: line) : t <+: f.endLine line :=
  (prefix_trimRight ht h).trans (List.prefix_append ..)

/-! ## A unit -/

/-- No piece of a unit between its break points is too long for a line behind the indent. -/
def Cuttable (f : Format) (threshold : Int) (unit : Text) : Prop :=
  (0 :: breakPoints threshold unit ++ [unit.length]).IsChain fun a b =>
    b - a + continuationRoom ≤ f.rightMargin - (f.indentColumn - 1)

/-- From `start` on, a unit stands behind `before` on lines that break it at some of `breaks` only. -/
inductive CutAtBreaks (f : Format) (breaks : List Nat) (unit : Text) : Text → Nat → List Text → Prop
  | last {before start line} : before ++ unit.drop start <+: line → CutAtBreaks f breaks unit before start [line]
  | cut {before start point lines} : point ∈ breaks → start < point → point < unit.length →
      CutAtBreaks f breaks unit f.indent point lines →
      CutAtBreaks f breaks unit before start ((before ++ unit.extract start point ++ [f.continuation]) :: lines)

theorem Cuttable.next {start : Nat} (h : f.Cuttable threshold unit) (hs : start ∈ 0 :: breakPoints threshold unit) :
    unit.length - start + continuationRoom ≤ f.rightMargin - f.indent.length ∨
    ∃ p ∈ breakPoints threshold unit, start < p ∧
    p - start + continuationRoom ≤ f.rightMargin - f.indent.length := by
  have hsorted := pairwise_breakPoints threshold unit
  obtain ⟨before, after, heq⟩ := List.append_of_mem hs
  rw [Cuttable, heq, List.append_assoc, ← length_indent] at h
  have hchain := h.right_of_append
  cases after with
  | nil => exact .inl (List.isChain_cons_cons.mp hchain).1
  | cons p after =>
    have hp : start < p := by
      rw [heq] at hsorted
      have := (List.pairwise_append.mp hsorted).2.1
      exact (List.pairwise_cons.mp this).1 p (List.mem_cons_self ..)
    have hmem : p ∈ 0 :: breakPoints threshold unit := by rw [heq]; simp
    refine .inr ⟨p, (List.mem_cons.mp hmem).resolve_left (by omega), hp, (List.isChain_cons_cons.mp hchain).1⟩

section
variable {more : Bool} {start : Nat} {p : Logged Placed}

theorem Cuttable.lastBreak?_ne_none (h : f.Cuttable threshold unit) (hs : start ∈ 0 :: breakPoints threshold unit)
    (hroom : f.hasRoom (f.indent ++ unit.drop start) more = false) :
    lastBreak? (breakPoints threshold unit) unit.length start (f.room f.indent) ≠ none := by
  intro hnone
  have hlen : f.indent.length + (unit.length - start) + reserve more > f.rightMargin := by
    simpa [hasRoom] using hroom
  have hreserve : reserve more ≤ continuationRoom := by cases more <;> decide
  rcases h.next hs with hlast | ⟨p, hp, hlt, hle⟩
  · simp only [continuationRoom] at hlast hreserve; omega
  · have := lastBreak?_eq_none_iff.mp hnone p hp hlt
    simp only [room, continuationRoom] at hle hreserve this
    omega

theorem Puts.notes_eq_nil (h : Puts f (breakPoints threshold unit) unit more line start p)
    (hf : f.Cuttable threshold unit)
    (hs : start ∈ 0 :: breakPoints threshold unit) : p.notes = [] := by
  induction h with
  | fits => rfl
  | cut _ hbreak _ ih => exact ih (List.mem_cons_of_mem _ (lastBreak?_mem hbreak))
  | next _ _ _ _ ih => exact ih hs
  | forced hroom hbreak _ _ _ => exact absurd hbreak (hf.lastBreak?_ne_none hs hroom)

theorem Puts.cutAtBreaks (h : Puts f (breakPoints threshold unit) unit more line start p)
    (hf : f.Cuttable threshold unit)
    (hs : start ∈ 0 :: breakPoints threshold unit) (hline : line = f.indent) {last : Text}
    (hlast : p.value.line <+: last) :
    f.CutAtBreaks (breakPoints threshold unit) unit line start (p.value.lines ++ [last]) := by
  induction h with
  | fits => exact .last hlast
  | cut _ hbreak _ ih =>
    obtain ⟨hlt, hlen, -⟩ := lastBreak?_bounds hbreak
    have hmem := lastBreak?_mem hbreak
    exact .cut hmem hlt hlen (ih (List.mem_cons_of_mem _ hmem) rfl hlast)
  | next _ _ hfresh _ _ => exact absurd hline hfresh
  | forced hroom hbreak _ _ _ => exact absurd hbreak (hf.lastBreak?_ne_none hs hroom)

theorem Puts.exists_cutAtBreaks (h : Puts f (breakPoints threshold unit) unit more line start p)
    (hf : f.Cuttable threshold unit) (hs : start ∈ 0 :: breakPoints threshold unit) {last : Text}
    (hlast : p.value.line <+: last) :
    ∃ before lines, f.CutAtBreaks (breakPoints threshold unit) unit before start lines ∧
      lines <:+ p.value.lines ++ [last] := by
  cases h with
  | fits => exact ⟨line, [last], .last hlast, List.suffix_rfl⟩
  | cut _ hbreak hrest =>
    obtain ⟨hlt, hlen, -⟩ := lastBreak?_bounds hbreak
    have hmem := lastBreak?_mem hbreak
    have := hrest.cutAtBreaks hf (List.mem_cons_of_mem _ hmem) rfl hlast
    exact ⟨line, _, .cut hmem hlt hlen this, List.suffix_rfl⟩
  | next _ _ _ hrest => exact ⟨f.indent, _, hrest.cutAtBreaks hf hs rfl hlast, List.suffix_cons ..⟩
  | forced hroom hbreak _ _ => exact absurd hbreak (hf.lastBreak?_ne_none hs hroom)

theorem CutAtBreaks.exists_infix {breaks : List Nat} {before : Text} {lines : List Text}
    (h : f.CutAtBreaks breaks unit before 0 lines) (hb : breaks = []) : ∃ line ∈ lines, unit <:+: line := by
  subst hb
  cases h with
  | last hline => exact ⟨_, List.mem_cons_self .., (List.suffix_append ..).isInfix.trans hline.isInfix⟩
  | cut hmem => cases hmem

theorem Puts.closes_line {breaks : List Nat} (h : Puts f breaks unit more line start p) (hc : Closes unit)
    (hs : start < unit.length) : Closes p.value.line := by
  induction h with
  | fits => exact (hc.drop hs).append _
  | cut _ hbreak _ ih => exact ih (lastBreak?_bounds hbreak).2.1
  | next _ _ _ _ ih => exact ih hs
  | forced hroom _ hpoint _ ih =>
    subst hpoint
    exact ih (forcedCut_of_not_hasRoom hroom).2

theorem Puts.startsWith {breaks : List Nat} (h : Puts f breaks unit more line start p) (ht : Closes t)
    (hline : t <+: line) : StartsWith t (p.value.lines ++ [p.value.line]) := by
  cases h with
  | fits => exact startsWith_cons (hline.trans (List.prefix_append ..))
  | cut => exact startsWith_cons (hline.trans ((List.prefix_append ..).trans (List.prefix_append ..)))
  | next => exact startsWith_cons (prefix_endLine ht hline)
  | forced => exact startsWith_cons (hline.trans ((List.prefix_append ..).trans (List.prefix_append ..)))

end

/-! ## All units -/

section
variable {comment : Bool} {separator : Text} {units tail : List Text}

theorem put_startsWith {more : Bool} (ht : Closes t) (h : t <+: line) :
    StartsWith t ((f.put threshold more line separator unit).value.lines ++
      [(f.put threshold more line separator unit).value.line]) :=
  (puts_putFrom f _ unit more (line ++ separator) 0).startsWith ht (h.trans (List.prefix_append ..))

theorem putAll_startsWith (ht : Closes t) (h : t <+: line)
    (htail : t <+: (f.putAll threshold comment line separator units).value.line → StartsWith t tail) :
    StartsWith t ((f.putAll threshold comment line separator units).value.lines ++ tail) := by
  induction units generalizing line separator with
  | nil => exact htail h
  | cons unit units ih =>
    rw [putAll] at htail ⊢
    simp only [Logged.value_bind, Logged.value_pure, List.append_assoc] at htail ⊢
    exact (put_startsWith ht h).append fun hline => ih hline htail

theorem putAll_notes (hf : ∀ unit ∈ units, f.Cuttable threshold unit) :
    (f.putAll threshold comment line separator units).notes = [] := by
  induction units generalizing line separator with
  | nil => rfl
  | cons unit units ih =>
    obtain ⟨hunit, hunits⟩ := List.forall_mem_cons.mp hf
    have hputs := puts_putFrom f (breakPoints threshold unit) unit (!units.isEmpty || comment) (line ++ separator) 0
    rw [putAll]
    simp only [Logged.notes_bind, Logged.notes_pure, List.append_nil, ih hunits]
    exact hputs.notes_eq_nil hunit (List.mem_cons_self ..)

theorem putAll_cutAtBreaks (hf : ∀ unit ∈ units, f.Cuttable threshold unit)
    (htail : ∀ t, Closes t → t <+: (f.putAll threshold comment line separator units).value.line → StartsWith t tail)
    (hu : unit ∈ units) (hc : Closes unit) :
    ∃ before lines, f.CutAtBreaks (breakPoints threshold unit) unit before 0 lines ∧
      lines <:+: (f.putAll threshold comment line separator units).value.lines ++ tail := by
  induction units generalizing line separator with
  | nil => cases hu
  | cons first units ih =>
    obtain ⟨hfirst, hunits⟩ := List.forall_mem_cons.mp hf
    rw [putAll] at htail ⊢
    simp only [Logged.value_bind, Logged.value_pure, List.append_assoc] at htail ⊢
    rcases List.mem_cons.mp hu with rfl | hu
    · have hputs := puts_putFrom f (breakPoints threshold unit) unit (!units.isEmpty || comment)
        (line ++ separator) 0
      have hpos : 0 < unit.length := by
        obtain ⟨cs, c, rfl, -⟩ := hc
        simp
      have hline := hputs.closes_line hc hpos
      -- what follows starts with the line that the unit ends on
      obtain ⟨last, hlast, hprefix⟩ := putAll_startsWith hline List.prefix_rfl (htail _ hline)
      obtain ⟨rest, hrest⟩ := List.head?_eq_some_iff.mp hlast
      obtain ⟨before, lines, hcut, hlines⟩ := hputs.exists_cutAtBreaks hfirst (List.mem_cons_self ..) hprefix
      refine ⟨before, lines, hcut, ?_⟩
      have hcons := List.append_cons (f.put threshold (!units.isEmpty || comment) line separator unit).value.lines
        last rest
      exact hrest ▸ hcons ▸ hlines.isInfix.trans (List.prefix_append ..).isInfix
    · obtain ⟨before, lines, hcut, hlines⟩ := ih hunits htail hu
      exact ⟨before, lines, hcut, hlines.trans (List.suffix_append ..).isInfix⟩

end

/-! ## Comments -/

section
variable {word : Text} {words : List Text} {note : Note}

theorem putFirstWord_startsWith (h : t <+: line) :
    StartsWith t ((f.putFirstWord line word).value.lines ++ [(f.putFirstWord line word).value.line]) := by
  unfold putFirstWord
  split
  · exact startsWith_cons (h.trans (List.prefix_append ..))
  · exact startsWith_cons (h.trans ((List.prefix_append ..).trans (List.prefix_append ..)))

theorem putWord_startsWith (h : t <+: line) :
    StartsWith t ((f.putWord line word).value.lines ++ [(f.putWord line word).value.line]) := by
  unfold putWord
  split
  · exact startsWith_cons (h.trans (List.prefix_append ..))
  · exact startsWith_cons (h.trans (List.prefix_append ..))

theorem putWords_startsWith (h : t <+: line) :
    StartsWith t ((f.putWords line words).value.lines ++ [(f.putWords line words).value.line]) := by
  induction words generalizing line with
  | nil => exact startsWith_cons h
  | cons word words ih =>
    simp only [putWords, Logged.value_bind, Logged.value_pure, List.append_assoc]
    exact (putWord_startsWith h).append ih

theorem putCommentWords_startsWith (h : t <+: line) :
    StartsWith t ((f.putCommentWords line words).value.lines ++ [(f.putCommentWords line words).value.line]) := by
  cases words with
  | nil => exact startsWith_cons h
  | cons word words =>
    simp only [putCommentWords, Logged.value_bind, Logged.value_pure, List.append_assoc]
    exact (putFirstWord_startsWith h).append putWords_startsWith

theorem putComment_startsWith {comment : Text} (ht : Closes t) (h : t <+: line) :
    StartsWith t ((f.putComment line comment).value.lines ++ [(f.putComment line comment).value.line]) := by
  unfold putComment openComment
  split
  · exact startsWith_cons (h.trans (List.prefix_append ..))
  · simp only [Logged.value_bind, Logged.value_pure]
    split
    · simp only [List.nil_append]
      refine (putCommentWords_startsWith (h.trans (List.prefix_append ..))).append fun hline => ?_
      exact startsWith_cons (hline.trans (List.prefix_append ..))
    · exact startsWith_cons (prefix_endLine ht h)

theorem putFirstWord_notes (h : note ∈ (f.putFirstWord line word).notes) :
    ∃ w, note = .wordCut w f.rightMargin := by
  fun_induction f.putFirstWord line word with
  | case1 => cases h
  | case2 line word _ _ ih =>
    simp only [Logged.notes_bind, Logged.notes_pure, List.append_nil] at h
    rcases List.mem_append.mp h with h | h
    · exact ⟨word, List.mem_singleton.mp h⟩
    · exact ih h

theorem putWord_notes (h : note ∈ (f.putWord line word).notes) : ∃ w, note = .wordCut w f.rightMargin := by
  unfold putWord at h
  split at h
  · cases h
  · simp only [Logged.notes_bind, Logged.notes_pure, List.append_nil] at h
    exact putFirstWord_notes h

theorem putWords_notes (h : note ∈ (f.putWords line words).notes) : ∃ w, note = .wordCut w f.rightMargin := by
  induction words generalizing line with
  | nil => cases h
  | cons word words ih =>
    simp only [putWords, Logged.notes_bind, Logged.notes_pure, List.append_nil] at h
    rcases List.mem_append.mp h with h | h
    · exact putWord_notes h
    · exact ih h

theorem putComment_notes {comment : Text} (h : note ∈ (f.putComment line comment).notes) :
    ∃ w, note = .wordCut w f.rightMargin := by
  unfold putComment at h
  split at h
  · cases h
  · simp only [Logged.notes_bind, Logged.notes_pure, List.append_nil] at h
    cases hw : wordsOfComment comment with
    | nil => rw [hw] at h; cases h
    | cons word words =>
      simp only [hw, putCommentWords, Logged.notes_bind, Logged.notes_pure, List.append_nil] at h
      rcases List.mem_append.mp h with h | h
      · exact putFirstWord_notes h
      · exact putWords_notes h

end

/-! ## Commands -/

theorem layout_eq_append (f : Format) (c : Command) (threshold : Int) (hcase : f.letterCase = .asWritten) :
    let p := f.putAll threshold (Call.part? c.comment).isSome (f.headLine c) (f.headGap (f.headLine c)) c.units
    ∃ tail, (f.layout c threshold).value = p.value.lines ++ tail ∧
      (∀ t, Closes t → t <+: p.value.line → StartsWith t tail) ∧
      ∀ note ∈ (f.layout c threshold).notes, note ∈ p.notes ∨ ∃ w, note = .wordCut w f.rightMargin := by
  intro p
  have hunits : c.units.map f.letterCase.apply = c.units := by
    rw [hcase]; exact List.map_id _
  cases hpart : Call.part? c.comment with
  | none =>
    have hlayout : f.layout c threshold = p >>= fun p => pure (p.lines ++ [p.line]) := by
      rewrite [layout, hunits]
      simp only [p, hpart]
    rw [hlayout]
    simp only [Logged.value_bind, Logged.notes_bind]
    refine ⟨[p.value.line], rfl, fun t _ h => startsWith_cons h, fun note h => .inl ?_⟩
    simpa using h
  | some comment =>
    have hlayout : f.layout c threshold = p >>= fun p =>
        f.putComment p.line comment >>= fun q => pure (p.lines ++ q.lines ++ [q.line]) := by
      rewrite [layout, hunits]
      simp only [p, hpart]
    rw [hlayout]
    simp only [Logged.value_bind, Logged.notes_bind]
    refine ⟨_, List.append_assoc .., fun t ht h => putComment_startsWith ht h, fun note h => ?_⟩
    rcases List.mem_append.mp h with h | h
    · exact .inl h
    · rw [Logged.notes_pure, List.append_nil] at h
      exact .inr (putComment_notes h)

/-- If the pieces of each unit between its break points fit on a line, no unit is cut by force, and a unit
that ends with no white space is cut at its break points only; without any it stands whole on a line. -/
theorem layout_cut_at_breaks {c : Command} (hcase : f.letterCase = .asWritten)
    (hfit : ∀ unit ∈ c.units, f.Cuttable threshold unit) :
    (∀ unit indent margin, Note.unitCut unit indent margin ∉ (f.layout c threshold).notes) ∧
      ∀ unit ∈ c.units, Closes unit →
        (∃ before lines, f.CutAtBreaks (breakPoints threshold unit) unit before 0 lines ∧
          lines <:+: (f.layout c threshold).value) ∧
        (breakPoints threshold unit = [] → ∃ line ∈ (f.layout c threshold).value, unit <:+: line) := by
  obtain ⟨tail, hvalue, htail, hnotes⟩ := f.layout_eq_append c threshold hcase
  rw [putAll_notes hfit] at hnotes
  refine ⟨fun unit indent margin h => ?_, fun unit hu hc => ?_⟩
  · rcases hnotes _ h with h | ⟨_, h⟩ <;> cases h
  · obtain ⟨before, lines, hcut, hlines⟩ := putAll_cutAtBreaks hfit htail hu hc
    rw [← hvalue] at hlines
    refine ⟨⟨before, lines, hcut, hlines⟩, fun hb => ?_⟩
    obtain ⟨line, hline, hunit⟩ := hcut.exists_infix hb
    exact ⟨line, hlines.subset hline, hunit⟩

theorem layout_cut_at_breaks_literal :
    let f : Format := ⟨1, 1, 0, 1, 9, '+', .asWritten, by decide, by decide⟩
    let c : Command := ⟨['A'], [⟨['B'], .scalar "'cc dd'".toList⟩, ⟨['C'], .scalar "EE".toList⟩], none, none⟩
    (∀ unit ∈ c.units, f.Cuttable 5 unit) ∧
      (f.layout c 5).value = ["A B('cc +".toList, "dd') +".toList, "C(EE)".toList] ∧
      (∀ unit indent margin, Note.unitCut unit indent margin ∉ (f.layout c 5).notes) ∧
      ∀ unit ∈ c.units, Closes unit →
        (∃ before lines, f.CutAtBreaks (breakPoints 5 unit) unit before 0 lines ∧
          lines <:+: (f.layout c 5).value) ∧
        (breakPoints 5 unit = [] → ∃ line ∈ (f.layout c 5).value, unit <:+: line) := by
  intro f c
  have hunits : c.units = ["B('cc dd')".toList, "C(EE)".toList] := rfl
  have hfirst : breakPoints 5 "B('cc dd')".toList = [6] := rfl
  have hsecond : breakPoints 5 "C(EE)".toList = [] := rfl
  have hfit : ∀ unit ∈ c.units, f.Cuttable 5 unit := by
    simp only [hunits, List.forall_mem_cons, Cuttable, hfirst, hsecond]
    decide
  have hvalue : (f.layout c 5).value = ["A B('cc +".toList, "dd') +".toList, "C(EE)".toList] :=
    of_runLayout (n := 40) (by decide +kernel) (by decide) (fun _ h => by cases h)
  exact ⟨hfit, hvalue, layout_cut_at_breaks rfl hfit⟩

/-- A line that goes on loses all white space at its end, also the last character of a unit. -/
theorem layout_loses_wide_space :
    let f : Format := ⟨1, 1, 0, 1, 12, '+', .asWritten, by decide, by decide⟩
    let c : Command := ⟨"CMD".toList,
      [⟨"__pos1".toList, .scalar ['A', '\u3000']⟩, ⟨"__pos2".toList, .scalar "BBBBBBBB".toList⟩], none, none⟩
    Command.parse "CMD A\u3000 BBBBBBBB".toList = .ok c ∧
      (∀ unit ∈ c.units, f.Cuttable longLiteral unit) ∧ ['A', '\u3000'] ∈ c.units ∧
      breakPoints longLiteral ['A', '\u3000'] = [] ∧ ∀ line ∈ (f.layout c).value, ¬['A', '\u3000'] <:+: line := by
  intro f c
  have hunits : c.units = [['A', '\u3000'], "BBBBBBBB".toList] := rfl
  have hfirst : breakPoints longLiteral ['A', '\u3000'] = [] := rfl
  have hsecond : breakPoints longLiteral "BBBBBBBB".toList = [] := rfl
  have hvalue : (f.layout c).value = ["CMD A +".toList, "BBBBBBBB".toList] :=
    of_runLayout (n := 40) (by decide +kernel) (by decide) (fun _ h => by cases h)
  have hparse : Command.parse "CMD A\u3000 BBBBBBBB".toList = .ok c := by
    -- the wide blank comes late in the table of letter case
    set_option maxRecDepth 8000 in with_unfolding_all rfl
  have hlost : ∀ line ∈ (f.layout c).value, '\u3000' ∉ line := by rw [hvalue]; decide
  refine ⟨hparse, ?_, ?_, hfirst, fun line hline h => hlost line hline (h.subset (by simp))⟩
  · simp only [hunits, List.forall_mem_cons, Cuttable, hfirst, hsecond]
    decide
  · rw [hunits]; exact List.mem_cons_self ..

end Format

end ControlLanguage
