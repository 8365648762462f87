import ControlLanguage.Lines.Layout
import ControlLanguage.Proofs.Lines.Rules
import ControlLanguage.Proofs.Token.Ends

/-!
# The right margin

No line but the first goes past the right margin, not even where a unit or a
word of a comment is cut. The first line holds the label and the name of the
command, which may be longer than that; if they are, it ends with them, or
with the continuation behind them.
-/

namespace ControlLanguage

/-- Lines of which the first has at most `first` characters and the others at most `margin`. -/
def Within (first margin : Nat) : List Text → Prop
  | [] => True
  | line :: lines => line.length ≤ first ∧ ∀ l ∈ lines, l.length ≤ margin

section
variable {first margin : Nat} {a b lines : List Text}

theorem within_of_forall (hm : margin ≤ first) (h : ∀ l ∈ lines, l.length ≤ margin) :
    Within first margin lines := by
  cases lines with
  | nil => trivial
  | cons line lines =>
    exact ⟨Nat.le_trans (h line (List.mem_cons_self ..)) hm, fun l hl => h l (List.mem_cons_of_mem _ hl)⟩

theorem Within.forall_le (h : Within first margin lines) (hm : first ≤ margin) :
    ∀ l ∈ lines, l.length ≤ margin := by
  cases lines with
  | nil => simp
  | cons line lines =>
    intro l hl
    rcases List.mem_cons.mp hl with rfl | hl
    · exact Nat.le_trans h.1 hm
    · exact h.2 l hl

theorem Within.mono {first' : Nat} (h : Within first margin lines) (hm : first ≤ first') :
    Within first' margin lines := by
  cases lines with
  | nil => trivial
  | cons line lines => exact ⟨Nat.le_trans h.1 hm, h.2⟩

theorem Within.append (ha : Within first margin a) (hm : margin ≤ first) (hb : ∀ l ∈ b, l.length ≤ margin) :
    Within first margin (a ++ b) := by
  cases a with
  | nil => exact within_of_forall hm hb
  | cons line lines =>
    refine ⟨ha.1, fun l hl => ?_⟩
    rcases List.mem_append.mp hl with hl | hl
    · exact ha.2 l hl
    · exact hb l hl

theorem forall_concat {line : Text} (h : ∀ l ∈ lines, l.length ≤ margin) (hline : line.length ≤ margin) :
    ∀ l ∈ lines ++ [line], l.length ≤ margin := by
  intro l hl
  rcases List.mem_append.mp hl with hl | hl
  · exact h l hl
  · rwa [List.mem_singleton.mp hl]

end

theorem length_extract_le (t : Text) (start stop : Nat) : (t.extract start stop).length ≤ stop - start := by
  rw [List.extract_eq_take_drop, List.length_take]; omega

namespace Format

variable {f : Format} {line : Text}

theorem length_indent_le (f : Format) : f.indent.length + commentRoom ≤ f.rightMargin := by
  rw [length_indent]; exact f.indent_fits

theorem length_endLine_le {separator : Text} (hs : ∀ c ∈ separator, isSpace c = true) :
    (f.endLine (line ++ separator)).length ≤ line.length + 2 := by
  obtain ⟨s, hline, -⟩ := Text.trimRight_prefix line
  have := congrArg List.length hline
  rw [List.length_append] at this
  rw [endLine, List.length_append, trimRight_append_spaces hs]
  simp only [List.length_cons, List.length_nil]; omega

/-! ## Units -/

section
variable {breaks : List Nat} {unit : Text} {more : Bool} {start : Nat} {p : Logged Placed}

theorem backOverBlanks_le (unit : Text) (least p : Nat) : backOverBlanks unit least p ≤ p := by
  induction p with
  | zero => exact Nat.le_refl _
  | succ p ih =>
    unfold backOverBlanks
    split
    · omega
    · exact Nat.le_refl _

theorem forcedCut_le : (forcedCut unit start (f.room f.indent) : Int) ≤ start + f.room f.indent := by
  have hroom := f.one_le_room_indent
  have := backOverBlanks_le unit (start + 1) (min (start + (max (f.room f.indent) 1).toNat) (unit.length - 1))
  unfold forcedCut
  omega

theorem length_piece_le {point : Nat} (h : (point : Int) ≤ start + f.room line) (hlt : start < point) :
    (line ++ unit.extract start point ++ [f.continuation]).length ≤ f.rightMargin := by
  have hpiece := length_extract_le unit start point
  rw [room] at h
  simp only [List.length_append, List.length_singleton]; omega

theorem Puts.within (h : Puts f breaks unit more line start p) :
    Within (max f.rightMargin (f.endLine line).length) f.rightMargin p.value.lines := by
  have hindent : (f.endLine f.indent).length ≤ f.rightMargin := by
    have := f.length_indent_le
    have hend : (f.endLine (f.indent ++ [])).length ≤ f.indent.length + 2 := length_endLine_le (by simp)
    rw [List.append_nil] at hend
    simp only [commentRoom] at this; omega
  induction h with
  | fits => trivial
  | cut _ hbreak _ ih =>
    obtain ⟨hlt, -, hroom⟩ := lastBreak?_bounds hbreak
    exact ⟨Nat.le_trans (length_piece_le hroom hlt) (Nat.le_max_left ..), ih.forall_le (by omega)⟩
  | next _ _ _ _ ih => exact ⟨Nat.le_max_right .., ih.forall_le (by omega)⟩
  | forced hroom _ hpoint _ ih =>
    subst hpoint
    obtain ⟨hlt, -⟩ := forcedCut_of_not_hasRoom hroom
    exact ⟨Nat.le_trans (length_piece_le forcedCut_le hlt) (Nat.le_max_left ..), ih.forall_le (by omega)⟩

variable {threshold : Int} {separator : Text}

theorem put_hasRoom (f : Format) (threshold : Int) (more : Bool) (line separator unit : Text) :
    f.hasRoom (f.put threshold more line separator unit).value.line more = true :=
  (puts_putFrom f (breakPoints threshold unit) unit more (line ++ separator) 0).hasRoom

theorem put_within (f : Format) (threshold : Int) (more : Bool) (line unit : Text)
    (hs : ∀ c ∈ separator, isSpace c = true) :
    Within (max f.rightMargin (line.length + 2)) f.rightMargin
      (f.put threshold more line separator unit).value.lines := by
  have hputs := puts_putFrom f (breakPoints threshold unit) unit more (line ++ separator) 0
  have hend : (f.endLine (line ++ separator)).length ≤ line.length + 2 := length_endLine_le hs
  exact hputs.within.mono (by omega)

theorem putAll_hasRoom (f : Format) (threshold : Int) (comment : Bool) (line separator : Text) {units : List Text}
    (hn : units ≠ []) :
    f.hasRoom (f.putAll threshold comment line separator units).value.line comment = true := by
  induction units generalizing line separator with
  | nil => exact absurd rfl hn
  | cons unit units ih =>
    cases units with
    | nil => exact put_hasRoom f threshold comment line separator unit
    | cons next units => exact ih _ _ (List.cons_ne_nil next units)

theorem putAll_within {comment : Bool} {units : List Text} (hs : ∀ c ∈ separator, isSpace c = true) :
    Within (max f.rightMargin (line.length + 2)) f.rightMargin
      (f.putAll threshold comment line separator units).value.lines := by
  induction units generalizing line separator with
  | nil => trivial
  | cons unit units ih =>
    rw [putAll]
    simp only [Logged.value_bind, Logged.value_pure]
    have hlines := f.put_within threshold (!units.isEmpty || comment) line unit hs
    refine hlines.append (Nat.le_max_left ..) ?_
    cases units with
    | nil => simp [putAll]
    | cons next units =>
      -- a unit that is not the last one leaves room for the continuation
      have hroom := put_hasRoom f threshold true line separator unit
      rw [hasRoom_iff, reserve, if_pos rfl, continuationRoom] at hroom
      have hblank : ∀ c ∈ [' '], isSpace c = true := List.forall_mem_singleton.mpr rfl
      exact (ih hblank).forall_le (Nat.max_le.mpr ⟨Nat.le_refl _, hroom⟩)

end

/-! ## Comments -/

theorem putFirstWord_within (f : Format) (line word : Text) (h : line.length + closingRoom < f.rightMargin) :
    (∀ l ∈ (f.putFirstWord line word).value.lines, l.length ≤ f.rightMargin) ∧
      (f.putFirstWord line word).value.line.length + closingRoom ≤ f.rightMargin := by
  have hindent := f.length_indent_le
  simp only [commentRoom] at hindent
  simp only [closingRoom] at h ⊢
  fun_induction f.putFirstWord line word with
  | case1 line word hroom =>
    simp only [Logged.value_pure, List.length_append, closingRoom] at hroom ⊢
    exact ⟨by simp, hroom⟩
  | case2 line word hroom room ih =>
    obtain ⟨hlines, hlast⟩ := ih (by omega)
    simp only [Logged.value_bind, Logged.value_pure]
    refine ⟨fun l hl => ?_, hlast⟩
    rcases List.mem_cons.mp hl with rfl | hl
    · have : (word.take room).length ≤ room := List.length_take_le ..
      simp only [List.length_append, List.length_singleton, closingRoom, room] at this ⊢
      omega
    · exact hlines l hl

theorem putWord_within (word : Text) (h : line.length + closingRoom ≤ f.rightMargin) :
    (∀ l ∈ (f.putWord line word).value.lines, l.length ≤ f.rightMargin) ∧
      (f.putWord line word).value.line.length + closingRoom ≤ f.rightMargin := by
  have hindent := f.length_indent_le
  simp only [commentRoom] at hindent
  unfold putWord
  split
  · next hroom =>
    simp only [Logged.value_pure, List.length_append, List.length_cons]
    exact ⟨by simp, by omega⟩
  · simp only [Logged.value_bind, Logged.value_pure]
    obtain ⟨hlines, hlast⟩ := f.putFirstWord_within f.indent word (by rw [closingRoom]; omega)
    refine ⟨fun l hl => ?_, hlast⟩
    rcases List.mem_cons.mp hl with rfl | hl
    · simp only [List.length_append, List.length_cons, List.length_nil, closingRoom] at h ⊢
      omega
    · exact hlines l hl

theorem putWords_within (words : List Text) (h : line.length + closingRoom ≤ f.rightMargin) :
    (∀ l ∈ (f.putWords line words).value.lines, l.length ≤ f.rightMargin) ∧
      (f.putWords line words).value.line.length + closingRoom ≤ f.rightMargin := by
  induction words generalizing line with
  | nil => exact ⟨by simp [putWords], h⟩
  | cons word words ih =>
    obtain ⟨hlines, hline⟩ := putWord_within word h
    obtain ⟨hrest, hlast⟩ := ih hline
    simp only [putWords, Logged.value_bind, Logged.value_pure]
    exact ⟨List.forall_mem_append.mpr ⟨hlines, hrest⟩, hlast⟩

theorem putCommentWords_within (words : List Text) (h : line.length + closingRoom < f.rightMargin) :
    (∀ l ∈ (f.putCommentWords line words).value.lines, l.length ≤ f.rightMargin) ∧
      (f.putCommentWords line words).value.line.length + closingRoom ≤ f.rightMargin := by
  cases words with
  | nil => exact ⟨by simp [putCommentWords], Nat.le_of_lt h⟩
  | cons word words =>
    obtain ⟨hlines, hline⟩ := f.putFirstWord_within line word h
    obtain ⟨hrest, hlast⟩ := putWords_within words hline
    simp only [putCommentWords, Logged.value_bind, Logged.value_pure]
    exact ⟨List.forall_mem_append.mpr ⟨hlines, hrest⟩, hlast⟩

theorem openComment_within (f : Format) (line : Text) :
    Within (max f.rightMargin (line.length + 2)) f.rightMargin (f.openComment line).lines ∧
      (f.openComment line).line.length + closingRoom < f.rightMargin := by
  have hindent := f.length_indent_le
  have hend : (f.endLine (line ++ [])).length ≤ line.length + 2 := length_endLine_le (by simp)
  rw [List.append_nil] at hend
  simp only [openComment]
  split
  · next hroom =>
    simp only [commentStart, closingRoom, leastCommentRoom, List.length_append] at hroom ⊢
    exact ⟨trivial, by omega⟩
  · simp only [Within, commentStart, commentRoom, closingRoom, List.length_append] at hindent ⊢
    refine ⟨⟨Nat.le_trans hend (Nat.le_max_right ..), by simp⟩, ?_⟩
    simp; omega

theorem putComment_within (f : Format) (line comment : Text) :
    Within (max f.rightMargin (line.length + 2)) f.rightMargin
      ((f.putComment line comment).value.lines ++ [(f.putComment line comment).value.line]) := by
  unfold putComment
  split
  · next hroom =>
    simp only [Logged.value_pure, List.nil_append]
    refine ⟨?_, by simp⟩
    simp only [List.length_append, List.length_cons]; omega
  · simp only [Logged.value_bind, Logged.value_pure]
    obtain ⟨hopen, hline⟩ := f.openComment_within line
    obtain ⟨hlines, hlast⟩ := putCommentWords_within (wordsOfComment comment) hline
    rw [List.append_assoc]
    refine hopen.append (Nat.le_max_left ..) (forall_concat hlines ?_)
    simp only [commentEnd, closingRoom, List.length_append] at hlast ⊢
    simpa using hlast

/-! ## Commands -/

theorem layout_ne_nil (f : Format) (c : Command) (threshold : Int) : (f.layout c threshold).value ≠ [] := by
  simp only [layout, Logged.value_bind]
  split <;> simp

theorem layout_within (f : Format) (c : Command) (threshold : Int) :
    Within (max f.rightMargin ((f.headLine c).length + 2)) f.rightMargin (f.layout c threshold).value := by
  have hgap : ∀ ch ∈ f.headGap (f.headLine c), isSpace ch = true := by
    intro ch h
    rw [List.eq_of_mem_replicate h]; decide
  simp only [layout, Logged.value_bind]
  generalize c.units.map f.letterCase.apply = units
  by_cases hn : units = []
  · subst hn
    split
    · exact ⟨Nat.le_trans (Nat.le_add_right ..) (Nat.le_max_right ..), by simp⟩
    · exact f.putComment_within (f.headLine c) _
  · split
    · next hnone =>
      have hroom := f.putAll_hasRoom threshold false (f.headLine c) (f.headGap (f.headLine c)) hn
      rw [hasRoom_iff] at hroom
      refine (putAll_within hgap).append (Nat.le_max_left ..) ?_
      intro l hl
      rw [List.mem_singleton.mp hl, hnone]
      exact Nat.le_of_add_right_le hroom
    · next comment hsome =>
      have hroom := f.putAll_hasRoom threshold true (f.headLine c) (f.headGap (f.headLine c)) hn
      rw [hasRoom_iff, reserve, if_pos rfl, continuationRoom] at hroom
      simp only [Logged.value_bind, Logged.value_pure]
      rw [List.append_assoc, hsome]
      refine (putAll_within hgap).append (Nat.le_max_left ..) ?_
      exact (f.putComment_within _ comment).forall_le (Nat.max_le.mpr ⟨Nat.le_refl _, hroom⟩)

/-- The first line of a command goes past the margin only with its label and name and the continuation
behind them, and no other line does. -/
theorem layout_within_margin (f : Format) (c : Command) (threshold : Int) :
    ∃ first rest, (f.layout c threshold).value = first :: rest ∧
      first.length ≤ max f.rightMargin ((f.headLine c).length + 2) ∧
      ∀ line ∈ rest, line.length ≤ f.rightMargin := by
  have hwithin := f.layout_within c threshold
  obtain ⟨first, rest, hv⟩ := List.exists_cons_of_ne_nil (f.layout_ne_nil c threshold)
  rw [hv] at hwithin
  exact ⟨first, rest, hv, hwithin⟩

end Format

end ControlLanguage
