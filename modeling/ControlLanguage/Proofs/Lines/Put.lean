import ControlLanguage.Command.Text
import ControlLanguage.Proofs.Lines.Join
import ControlLanguage.Proofs.Lines.Rules

/-!
# Placing loses nothing

The lines that a unit is placed on add the unit and what separates it from
the text in front of it: the separator that was asked for, or a single blank
if a line ends between them. Only a cut by force, which is noted, may lose
something: the blanks in front of which it is made. A unit in which blanks
never fill a line has no such cut.
-/

namespace ControlLanguage

namespace Note

def Quiet (notes : List Note) : Prop := ∀ n ∈ notes, n.level ≠ .warning

theorem Quiet.of_append {a b : List Note} (h : Quiet (a ++ b)) : Quiet a ∧ Quiet b :=
  ⟨fun n hn => h n (List.mem_append_left _ hn), fun n hn => h n (List.mem_append_right _ hn)⟩

end Note

open Note

theorem not_space_of_mem_breakPoints {threshold : Int} {unit : Text} {p : Nat}
    (h : p ∈ breakPoints threshold unit) : unit[p]? ≠ some ' ' := by
  obtain ⟨⟨b, e⟩, -, hp⟩ := List.mem_flatMap.mp h
  simp only at hp
  split at hp
  · cases hp
  · have := (List.mem_filter.mp hp).2
    simp only [Bool.and_eq_true, bne_iff_ne] at this
    exact this.2

/-! ## Cuts by force -/

theorem backOverBlanks_eq_blank {unit : Text} {least p : Nat} (hl : 0 < least) (hp : least ≤ p)
    (h : unit[backOverBlanks unit least p]? = some ' ') : ∀ i, least ≤ i → i ≤ p → unit[i]? = some ' ' := by
  induction p with
  | zero => omega
  | succ p ih =>
    rw [backOverBlanks] at h
    intro i hi hip
    split at h
    · next hc =>
      rcases Nat.eq_or_lt_of_le hip with rfl | hlt
      · exact hc.2
      · exact ih (by omega) h i hi (by omega)
    · next hc =>
      -- no step back: a blank at `p + 1` is at the lower bound
      have hblank : unit[p + 1]? = some ' ' := h
      have : i = p + 1 := by
        have : ¬least < p + 1 := fun hlt => hc ⟨hlt, hblank⟩
        omega
      rw [this]; exact hblank

theorem blanks_isInfix_of_forall {unit : Text} {start n : Nat}
    (h : ∀ i, start ≤ i → i < start + n → unit[i]? = some ' ') :
    Text.blanks n <:+: unit := by
  have heq : (unit.drop start).take n = Text.blanks n := by
    refine List.ext_getElem? fun i => ?_
    rw [List.getElem?_take, Text.blanks, List.getElem?_replicate]
    split
    · rw [List.getElem?_drop]; exact h _ (Nat.le_add_right ..) (by omega)
    · rfl
  rw [← heq]
  exact (List.take_prefix ..).isInfix.trans (List.drop_suffix ..).isInfix

namespace Format

/-- Blanks never fill a line that a unit goes on behind. -/
def Compact (f : Format) (unit : Text) : Prop := ¬Text.blanks (f.room f.indent).toNat <:+: unit

theorem Compact.forcedCut {f : Format} {unit : Text} {start : Nat} (h : f.Compact unit) (hc : Closes unit)
    (hs : start + 1 < unit.length) : unit[forcedCut unit start (f.room f.indent)]? ≠ some ' ' := by
  intro hblank
  have hroom := f.one_le_room_indent
  rw [ControlLanguage.forcedCut, Int.max_eq_left hroom] at hblank
  have hall := backOverBlanks_eq_blank (by omega) (by omega) hblank
  by_cases hlast : unit.length - 1 ≤ start + (f.room f.indent).toNat
  · -- the last character is no blank
    obtain ⟨cs, c, rfl, hc⟩ := hc
    have := hall (cs ++ [c]).length.pred (by simp at hs ⊢; omega) (by simp at hlast ⊢; omega)
    rw [List.length_append, List.length_singleton, Nat.pred_succ, List.getElem?_concat_length] at this
    cases this
    exact absurd hc (by decide)
  · exact h (blanks_isInfix_of_forall fun i hi hlt => hall i hi (by omega))

/-! ## A unit -/

section
variable {f : Format} {breaks : List Nat} {unit line : Text} {more : Bool} {start : Nat} {p : Logged Placed}

theorem head?_drop_of_ne (h : unit[start]? ≠ some ' ') : (unit.drop start).head? ≠ some ' ' := by
  rw [List.head?_drop]; exact h

theorem writes_extract {point : Nat} {q : Placed} (hlt : start < point) (hl : point < unit.length)
    (hcut : dropBlanks (line ++ unit.extract start point) = dropBlanks line ++ unit.extract start point)
    (h : Writes f f.indent (unit.drop point) q) : Writes f line (unit.drop start)
      ⟨(line ++ unit.extract start point ++ [f.continuation]) :: q.lines, q.line⟩ := by
  have hsplit : unit.extract start point ++ unit.drop point = unit.drop start := by
    have := List.take_append_drop (point - start) (unit.drop start)
    rwa [List.drop_drop, Nat.add_sub_of_le (Nat.le_of_lt hlt)] at this
  have hnext := h.next hcut (by simpa using hl)
  rwa [hsplit] at hnext

theorem head?_extract_of_ne {point : Nat} (hlt : start < point) (h : unit[start]? ≠ some ' ') :
    (unit.extract start point).head? ≠ some ' ' := by
  rw [List.extract_eq_take_drop, List.head?_take, if_neg (by omega)]
  exact head?_drop_of_ne h

/-- Behind the indent a line ends at a break or in front of another character that is no blank, or not
at all. -/
theorem Puts.writes (h : Puts f breaks unit more line start p) (hline : line = f.indent)
    (hb : ∀ p ∈ breaks, unit[p]? ≠ some ' ') (hc : Closes unit) (hs : unit[start]? ≠ some ' ')
    (hl : start < unit.length) (hq : Quiet p.notes ∨ f.Compact unit) : Writes f line (unit.drop start) p.value := by
  induction h with
  | fits => exact .here (dropBlanks_append_of_head (head?_drop_of_ne hs) _)
  | cut _ hbreak _ ih =>
    obtain ⟨hlt, hlen, -⟩ := lastBreak?_bounds hbreak
    have hrest := ih rfl (hb _ (lastBreak?_mem hbreak)) hlen hq
    exact writes_extract hlt hlen (dropBlanks_append_of_head (head?_extract_of_ne hlt hs) _) hrest
  | next _ _ hfresh _ _ => exact absurd hline hfresh
  | forced hroom _ hpoint _ ih =>
    subst hpoint
    obtain ⟨hlt, hlen⟩ := forcedCut_of_not_hasRoom hroom
    have hcompact : f.Compact unit := hq.resolve_left fun hq => hq _ (List.mem_cons_self ..) rfl
    have hrest := ih rfl (hcompact.forcedCut hc (lt_length_of_not_hasRoom hroom)) hlen (.inr hcompact)
    exact writes_extract hlt hlen (dropBlanks_append_of_head (head?_extract_of_ne hlt hs) _) hrest

theorem put_writes {threshold : Int} {separator : Text} (hl : Closes line) (hsep : ∀ c ∈ separator, c = ' ')
    (hu : Tight unit) (hq : Quiet (f.put threshold more line separator unit).notes ∨ f.Compact unit) :
    ∃ s, (s = separator ∨ s = [' ']) ∧
      Writes f line (s ++ unit) (f.put threshold more line separator unit).value := by
  have hb : ∀ p ∈ breakPoints threshold unit, unit[p]? ≠ some ' ' := fun _ => not_space_of_mem_breakPoints
  have hhead : unit.head? ≠ some ' ' := by
    obtain ⟨c, cs, rfl, hc⟩ := hu.opens
    rintro ⟨⟩; exact absurd hc (by decide)
  have hlen : 0 < unit.length := List.length_pos_iff.mpr hu.opens.ne_nil
  have hzero : unit[0]? ≠ some ' ' := by rw [← List.head?_eq_getElem?]; exact hhead
  have hline : line ++ separator ≠ f.indent := by
    intro he
    obtain ⟨cs, c, rfl, hc⟩ := hl
    have hm : c ∈ f.indent := by rw [← he]; simp
    rw [List.eq_of_mem_replicate hm] at hc
    exact absurd hc (by decide)
  have hcat : ∀ x, dropBlanks (line ++ x) = dropBlanks line ++ x := dropBlanks_append_of_closes hl
  have hputs := puts_putFrom f (breakPoints threshold unit) unit more (line ++ separator) 0
  rw [put] at hq ⊢
  generalize f.putFrom (breakPoints threshold unit) unit more (line ++ separator) 0 = p at hq hputs ⊢
  generalize hbehind : line ++ separator = behind at hputs
  cases hputs with
  | fits =>
    refine ⟨separator, .inl rfl, ?_⟩
    rw [← hbehind, List.append_assoc]
    exact .here (hcat _)
  | @cut _ _ point _ _ hbreak hp =>
    obtain ⟨-, hlt, -⟩ := lastBreak?_bounds hbreak
    have hrest := hp.writes rfl hb hu.closes (hb _ (lastBreak?_mem hbreak)) hlt hq
    refine ⟨separator, .inl rfl, ?_⟩
    have := hrest.next (hcat (separator ++ unit.take point)) (by simpa using hlt)
    rw [List.append_assoc, List.take_append_drop] at this
    rw [← hbehind]
    simpa using this
  | next _ _ _ hp =>
    have hrest := hp.writes rfl hb hu.closes hzero hlen hq
    refine ⟨[' '], .inr rfl, ?_⟩
    have hend : f.endLine (line ++ separator) = line ++ [' '] ++ [f.continuation] := by
      rw [endLine, trimRight_append_spaces (fun c hc => by rw [hsep c hc]; decide), trimRight_of_closes hl,
        List.append_assoc]
      rfl
    rw [← hbehind, hend]
    exact hrest.next (hcat [' ']) hu.opens.ne_nil
  | forced => exact absurd hbehind hline

theorem putAll_writes {threshold : Int} {comment : Bool} {separator : Text} {units : List Text}
    (hn : units ≠ []) (hl : Closes line) (hsep : ∀ c ∈ separator, c = ' ') (hu : ∀ u ∈ units, Tight u)
    (hq : Quiet (f.putAll threshold comment line separator units).notes ∨ ∀ u ∈ units, f.Compact u) :
    ∃ s, (s = separator ∨ s = [' ']) ∧
      Writes f line (s ++ Text.unwords units) (f.putAll threshold comment line separator units).value := by
  induction units generalizing line separator with
  | nil => exact absurd rfl hn
  | cons u us ih =>
    have htight := hu u (List.mem_cons_self ..)
    rw [putAll] at hq ⊢
    simp only [Logged.notes_bind, Logged.notes_pure, List.append_nil] at hq
    obtain ⟨s, hs, hw⟩ := put_writes hl hsep htight
      (hq.imp (fun h => h.of_append.1) fun h => h u (List.mem_cons_self ..))
    refine ⟨s, hs, ?_⟩
    simp only [Logged.value_bind, Logged.value_pure]
    cases us with
    | nil => simpa [putAll, Text.unwords] using hw
    | cons v vs =>
      have hclose := hw.closes (htight.closes.append s)
      obtain ⟨s', hs', hw'⟩ := ih (List.cons_ne_nil v vs) hclose (by simp)
        (fun w hm => hu w (List.mem_cons_of_mem _ hm))
        (hq.imp (fun h => h.of_append.2) fun h w hm => h w (List.mem_cons_of_mem _ hm))
      obtain rfl : s' = [' '] := by simpa using hs'
      have := hw.trans hw' (by simp)
      rw [List.append_assoc] at this
      rw [show Text.unwords (u :: v :: vs) = u ++ ([' '] ++ Text.unwords (v :: vs)) by
        simp [Text.unwords, List.intercalate]]
      exact this

end

end Format

end ControlLanguage
