import Mathlib.Data.List.Basic
import ControlLanguage.Command.Parse
import ControlLanguage.Lines.Layout
import ControlLanguage.Proofs.Comment.Extraction
import ControlLanguage.Proofs.Comment.Wrapping
import ControlLanguage.Proofs.Spelling.Command

/-!
# Laying out a comment again

The joined lines of a command hold its comment as it was or with single
blanks between its words. Laid out again, such a comment comes out in the
same lines, unless it had to start on a new line only because of the blanks
that it has lost: `layout_joinedComment`.
-/

namespace ControlLanguage

/-! ## The comment of a command -/

theorem trim_trimRight_commentStart (b : Text) :
    Text.trim (Text.trimRight (commentStart ++ b)) = Text.trimRight (commentStart ++ b) := by
  have hcloses : Closes (commentStart ++ Text.trimRight b) := by
    rcases closes_trimRight b with hb | hb
    · rw [hb]; exact ⟨['/'], '*', rfl, by decide⟩
    · exact hb.append _
  rw [trimRight_commentStart, Text.trim]
  exact trimRight_of_closes hcloses

theorem trim_takeComment {t k : Text} (h : (takeComment t).2 = some k) : commentStart <+: k ∧ Text.trim k = k := by
  rw [takeComment] at h
  split at h
  · next hstart =>
    obtain rfl := Option.some.inj h
    obtain ⟨b, hb⟩ := List.isPrefixOf_iff_prefix.mp hstart
    refine ⟨?_, trim_trim t⟩
    rw [Text.trim, ← hb, trimRight_commentStart]
    exact List.prefix_append ..
  · split at h
    · cases h
    · next start hstart =>
      obtain ⟨a, b, rfl, rfl, -⟩ := exists_of_findOutside? hstart
      have hbody : (a ++ ' ' :: (commentStart ++ b)).drop (a.length + 1) = commentStart ++ b := by
        rw [← List.drop_drop, List.drop_left]; rfl
      simp only [hbody, find?_commentEnd, Option.some.injEq] at h
      cases hfind : Text.find? commentEnd b 0 with
      | none =>
        simp only [hfind, Option.map_none] at h
        rw [← h]
        refine ⟨?_, trim_trimRight_commentStart b⟩
        rw [trimRight_commentStart]
        exact List.prefix_append ..
      | some i =>
        obtain ⟨m, rest, rfl, rfl, -⟩ := Text.find?_eq_some (by decide) hfind
        simp only [hfind, Option.map_some, take_closedComment] at h
        rw [← h]
        refine ⟨List.prefix_append .., ?_⟩
        rw [← List.append_assoc]
        exact trim_comment m

namespace Format

variable {f : Format} {line comment : Text} {words : List Text}

/-! ## Words that fit -/

theorem putWords_of_fits (h : line.length + (words.flatMap (' ' :: ·)).length + closingRoom ≤ f.rightMargin) :
    (f.putWords line words).value = ⟨[], line ++ words.flatMap (' ' :: ·)⟩ := by
  induction words generalizing line with
  | nil => simp [putWords]
  | cons w ws ih =>
    rw [List.flatMap_cons, List.length_append, List.length_cons] at h
    have hword : f.putWord line w = pure ⟨[], line ++ ' ' :: w⟩ := by rw [putWord, if_pos (by omega)]
    have hws : (f.putWords (line ++ ' ' :: w) ws).value = _ :=
      ih (by rw [List.length_append, List.length_cons]; omega)
    simp only [putWords, hword, Logged.value_bind, Logged.value_pure, hws, List.flatMap_cons, List.append_assoc,
      List.nil_append]

theorem putCommentWords_of_fits (h : line.length + (Text.unwords words).length + closingRoom ≤ f.rightMargin) :
    (f.putCommentWords line words).value = ⟨[], line ++ Text.unwords words⟩ := by
  cases words with
  | nil => exact congrArg (Placed.mk []) (List.append_nil line).symm
  | cons w ws =>
    rw [unwords_cons, List.length_append] at h
    have hword : f.putFirstWord line w = pure ⟨[], line ++ w⟩ := by rw [putFirstWord, dif_pos (by omega)]
    have hws : (f.putWords (line ++ w) ws).value = _ := putWords_of_fits (by rw [List.length_append]; omega)
    simp only [putCommentWords, hword, Logged.value_bind, Logged.value_pure, hws, unwords_cons, List.append_assoc,
      List.nil_append]

/-! ## Comments -/

def writtenComment (f : Format) (line comment : Text) : Text :=
  if line.length + 1 + comment.length ≤ f.rightMargin then comment else respaced comment

/-- A comment starts on a new line, although there is room for it behind the line once it is written anew. -/
def Moves (f : Format) (line comment : Text) : Prop :=
  f.rightMargin < line.length + 1 + comment.length ∧ (f.openComment line).lines ≠ [] ∧
    line.length + 1 + (respaced comment).length ≤ f.rightMargin

instance (f : Format) (line comment : Text) : Decidable (f.Moves line comment) :=
  inferInstanceAs (Decidable (_ ∧ _))

theorem value_putComment_of_fits (h : line.length + 1 + comment.length ≤ f.rightMargin) :
    (f.putComment line comment).value = ⟨[], line ++ ' ' :: comment⟩ := by
  rw [putComment, if_pos h]; rfl

theorem value_putComment_of_long (h : f.rightMargin < line.length + 1 + comment.length) :
    (f.putComment line comment).value =
      let opened := f.openComment line
      let p := (f.putCommentWords opened.line (wordsOfComment comment)).value
      ⟨opened.lines ++ p.lines, p.line ++ ' ' :: commentEnd⟩ := by
  rw [putComment, if_neg (Nat.not_le.mpr h)]; rfl

theorem length_respaced (comment : Text) :
    (respaced comment).length = (Text.unwords (wordsOfComment comment)).length + 6 := by
  simp [respaced, commentStart, commentEnd]

theorem putComment_writtenComment (f : Format) (line comment : Text) :
    let p := (f.putComment line comment).value
    let q := (f.putComment line (f.writtenComment line comment)).value
    q.lines ++ [q.line] = p.lines ++ [p.line] ↔ ¬f.Moves line comment := by
  intro p q
  by_cases hfits : line.length + 1 + comment.length ≤ f.rightMargin
  · have hk : f.writtenComment line comment = comment := if_pos hfits
    simp only [q, hk, p, true_iff]
    exact fun hmoves => Nat.not_le.mpr hmoves.1 hfits
  · have hk : f.writtenComment line comment = respaced comment := if_neg hfits
    have hp := value_putComment_of_long (f := f) (Nat.lt_of_not_le hfits)
    by_cases hshort : line.length + 1 + (respaced comment).length ≤ f.rightMargin
    · have hq := value_putComment_of_fits (f := f) hshort
      rcases f.openComment_cases line with ⟨hroom, -, hopen⟩ | ⟨hroom, -, hopen⟩
      · -- all words go on in the line that the comment starts on
        have hline : (line ++ ' ' :: commentStart ++ [' ']).length = line.length + 4 := by simp [commentStart]
        have hwords :
            (f.putCommentWords (line ++ ' ' :: commentStart ++ [' ']) (wordsOfComment comment)).value = _ :=
          putCommentWords_of_fits (by rw [hline, closingRoom]; rw [length_respaced] at hshort; omega)
        have hmoves : ¬f.Moves line comment := fun hmoves => hmoves.2.1 (by rw [hopen])
        simp only [p, q, hk, hp, hq, hopen, hwords, hmoves, not_false_iff, iff_true]
        simp [respaced]
      · have hmoves : f.Moves line comment := ⟨Nat.lt_of_not_le hfits, by rw [hopen]; simp, hshort⟩
        simp only [p, q, hk, hp, hq, hopen, hmoves, not_true, iff_false]
        intro he
        have := congrArg List.length he
        simp at this
    · have hq := value_putComment_of_long (f := f) (Nat.lt_of_not_le hshort)
      rw [wordsOfComment_respaced, ← hp] at hq
      simp only [q, hk, p, hq, true_iff]
      exact fun hmoves => hshort hmoves.2.2

/-! ## Commands -/

section
variable {c : Command} {threshold : Int}

def putUnits (f : Format) (c : Command) (threshold : Int) : Placed :=
  (f.putAll threshold true (f.headLine c) (f.headGap (f.headLine c)) (c.units.map f.letterCase.apply)).value

/-- What the lines of a command hold up to its last unit. -/
def joinedUnits (f : Format) (c : Command) (threshold : Int) : Text :=
  joinLines ((f.putUnits c threshold).lines ++ [Text.trimRight (f.putUnits c threshold).line])

/-- What they hold behind it. -/
def joinedComment (f : Format) (c : Command) (threshold : Int) : Text :=
  Text.trim ((joinLines (f.layout c threshold).value).drop (f.joinedUnits c threshold).length)

theorem value_layout_comment (hc : Call.part? c.comment = some comment) : (f.layout c threshold).value =
    let u := f.putUnits c threshold
    let p := (f.putComment u.line comment).value
    u.lines ++ (p.lines ++ [p.line]) := by
  rw [layout]
  simp only [hc, Logged.value_bind, Logged.value_pure, Option.isSome_some, List.append_assoc]
  rfl

theorem joinLines_concat_cons (l : Text) (ls : List Text) (line : Text) :
    joinLines (l :: ls ++ [line]) = (unindent ((l :: ls).map List.dropLast)).flatten ++ dropBlanks line := by
  rw [joinLines_concat, unindent_concat (by simp)]
  simp

theorem exists_joinLines_gap (lines : List Text) (line : Text) {gap k : Text} (hgap : ∀ c ∈ gap, isSpace c = true)
    (hk : k.head? ≠ some ' ') : ∃ gap', (∀ c ∈ gap', isSpace c = true) ∧
      joinLines (lines ++ [Text.trimRight line ++ (gap ++ k)]) =
        joinLines (lines ++ [Text.trimRight line]) ++ (gap' ++ k) := by
  rcases closes_trimRight line with hnil | hcloses
  · -- the line has nothing but white space, of which it loses the blanks if it is not the first one
    rw [hnil, List.nil_append]
    cases lines with
    | nil =>
      refine ⟨gap, hgap, ?_⟩
      rw [List.nil_append, List.nil_append, joinLines_singleton, joinLines_singleton, List.nil_append]
    | cons l ls =>
      refine ⟨dropBlanks gap, fun c hc => hgap c ((List.dropWhile_sublist _).subset hc), ?_⟩
      rw [joinLines_concat_cons, joinLines_concat_cons, dropBlanks_append_of_head hk]
      simp [dropBlanks]
  · exact ⟨gap, hgap, joinLines_append (dropBlanks_append_of_closes hcloses _) lines⟩

theorem exists_gap (f : Format) (line comment : Text) : ∃ gap, (∀ c ∈ gap, isSpace c = true) ∧
    (if line.length + 1 + comment.length ≤ f.rightMargin then line ++ ' ' :: comment
      else f.beforeComment line ++ ' ' :: respaced comment) =
      Text.trimRight line ++ (gap ++ f.writtenComment line comment) := by
  obtain ⟨s, hline, hs⟩ := Text.trimRight_prefix line
  have hblank : ∀ c ∈ [' '], isSpace c = true := List.forall_mem_singleton.mpr rfl
  have hsblank : ∀ c ∈ s ++ [' '], isSpace c = true := List.forall_mem_append.mpr ⟨hs, hblank⟩
  unfold writtenComment
  split
  · refine ⟨s ++ [' '], hsblank, ?_⟩
    conv_lhs => rw [hline]
    simp
  · rcases f.openComment_cases line with ⟨-, hbefore, -⟩ | ⟨-, hbefore, -⟩
    · refine ⟨s ++ [' '], hsblank, ?_⟩
      rw [hbefore]
      conv_lhs => rw [hline]
      simp
    · exact ⟨[' '], hblank, by rw [hbefore]; rfl⟩

theorem trim_writtenComment (hstart : commentStart <+: comment) (htrim : Text.trim comment = comment) (f : Format)
    (line : Text) : (f.writtenComment line comment).head? = some '/' ∧
      Text.trim (f.writtenComment line comment) = f.writtenComment line comment := by
  unfold writtenComment
  split
  · obtain ⟨b, rfl⟩ := hstart
    exact ⟨rfl, htrim⟩
  · exact ⟨rfl, trim_comment _⟩

theorem joinLines_layout_comment (f : Format) (threshold : Int) (hc : Call.part? c.comment = some comment)
    (hstart : commentStart <+: comment) (htrim : Text.trim comment = comment) :
    f.joinedComment c threshold = f.writtenComment (f.putUnits c threshold).line comment ∧
    ∃ gap, (∀ ch ∈ gap, isSpace ch = true) ∧ joinLines (f.layout c threshold).value =
      f.joinedUnits c threshold ++ gap ++ f.joinedComment c threshold := by
  generalize hu : f.putUnits c threshold = u
  obtain ⟨hhead, hself⟩ := trim_writtenComment hstart htrim f u.line
  obtain ⟨gap, hgap, hline⟩ := f.exists_gap u.line comment
  obtain ⟨gap', hgap', hjoin⟩ := exists_joinLines_gap u.lines u.line hgap (by rw [hhead]; decide)
  have hjoined : joinLines (f.layout c threshold).value =
      f.joinedUnits c threshold ++ (gap' ++ f.writtenComment u.line comment) := by
    rw [value_layout_comment hc, joinedUnits, hu, ← hjoin, ← hline]
    exact (f.putComment_joins u.line comment).2 u.lines
  have hk : f.joinedComment c threshold = f.writtenComment u.line comment := by
    rw [joinedComment, hjoined, List.drop_left, trim_spaces_append hgap', hself]
  exact ⟨hk, gap', hgap', by rw [hk, hjoined, List.append_assoc]⟩

/-- The joined lines of a command hold its units and its comment, and with that comment it is laid out in the same
lines, unless the comment was moved. -/
theorem layout_joinedComment {text : Text} (hparse : Command.parse text = .ok c) (hc : c.comment = some comment)
    (f : Format) (threshold : Int) :
    (∃ gap, (∀ ch ∈ gap, isSpace ch = true) ∧ joinLines (f.layout c threshold).value =
      f.joinedUnits c threshold ++ gap ++ f.joinedComment c threshold) ∧
    ((f.layout { c with comment := some (f.joinedComment c threshold) } threshold).value =
      (f.layout c threshold).value ↔ ¬f.Moves (f.putUnits c threshold).line comment) := by
  obtain ⟨rest, body, -, -, -, -, hcomment, -⟩ := exists_readFrom hparse
  obtain ⟨hstart, htrim⟩ := trim_takeComment (t := rest) (k := comment) (by rw [hcomment, hc])
  have hpart : Call.part? c.comment = some comment := by
    obtain ⟨b, rfl⟩ := hstart
    rw [hc]; rfl
  obtain ⟨hk, hgap⟩ := joinLines_layout_comment f threshold hpart hstart htrim
  refine ⟨hgap, ?_⟩
  have hagain : Call.part? (some (f.joinedComment c threshold)) = some (f.joinedComment c threshold) := by
    obtain ⟨hhead, -⟩ := trim_writtenComment hstart htrim f (f.putUnits c threshold).line
    rw [← hk] at hhead
    cases hj : f.joinedComment c threshold with
    | nil => rw [hj] at hhead; cases hhead
    | cons => rfl
  have hunits : f.putUnits { c with comment := some (f.joinedComment c threshold) } threshold =
      f.putUnits c threshold := rfl
  rw [value_layout_comment hpart, value_layout_comment (c := { c with comment := _ }) hagain, hunits, hk]
  simp only [List.append_cancel_left_eq]
  exact f.putComment_writtenComment _ comment

theorem layout_joinedComment_cut :
    let f : Format := ⟨1, 1, 0, 3, 12, '+', .asWritten, by decide, by decide⟩
    let text := "cmd a(1) /* note  abcdefghijk */".toList
    let c : Command := ⟨"CMD".toList, [⟨['A'], .scalar ['1']⟩], some "/* note  abcdefghijk */".toList, none⟩
    Command.parse text = .ok c ∧
      (f.layout c).value = ["CMD A(1) +".toList, "  /* note +".toList, "  abcdefg+".toList, "  hijk */".toList] ∧
      f.joinedComment c longLiteral = "/* note abcdefghijk */".toList ∧
      (∃ gap, (∀ ch ∈ gap, isSpace ch = true) ∧ joinLines (f.layout c).value =
        f.joinedUnits c longLiteral ++ gap ++ f.joinedComment c longLiteral) ∧
      (f.layout { c with comment := some (f.joinedComment c longLiteral) }).value = (f.layout c).value := by
  intro f text c
  have hparse : Command.parse text = .ok c := by with_unfolding_all rfl
  have hunits : c.units = ["A(1)".toList] := rfl
  have hput : f.putUnits c longLiteral = ⟨[], "CMD A(1)".toList⟩ := by rw [putUnits, hunits]; cbv
  have hlines : (f.layout c).value =
      ["CMD A(1) +".toList, "  /* note +".toList, "  abcdefg+".toList, "  hijk */".toList] := by
    rw [value_layout_comment rfl, hput]
    cbv
  have hlayout := layout_joinedComment hparse rfl f longLiteral
  refine ⟨hparse, hlines, ?_, hlayout.1, hlayout.2.mpr ?_⟩
  · rw [joinedComment, hlines, joinedUnits, hput]
    decide
  · rw [hput]
    decide

/-- A comment that has to start on a new line because of its blanks loses them, and then there is room for it on
the line before. -/
theorem layout_joinedComment_moved :
    let f : Format := ⟨1, 1, 0, 1, 24, '+', .asWritten, by decide, by decide⟩
    let text := "CMD A(1) /*           x */".toList
    let c : Command := ⟨"CMD".toList, [⟨['A'], .scalar ['1']⟩], some "/*           x */".toList, none⟩
    Command.parse text = .ok c ∧ (f.layout c).notes = [] ∧
      (f.layout c).value = ["CMD A(1) +".toList, "/* x */".toList] ∧
      f.joinedComment c longLiteral = "/* x */".toList ∧
      (f.layout { c with comment := some (f.joinedComment c longLiteral) }).value ≠ (f.layout c).value := by
  intro f text c
  have hparse : Command.parse text = .ok c := by with_unfolding_all rfl
  have hunits : c.units = ["A(1)".toList] := rfl
  have hput : f.putUnits c longLiteral = ⟨[], "CMD A(1)".toList⟩ := by rw [putUnits, hunits]; cbv
  have hlayout : f.layout c = ⟨[], ["CMD A(1) +".toList, "/* x */".toList]⟩ := by rw [layout, hunits]; cbv
  have hcomment : f.joinedComment c longLiteral = "/* x */".toList := by
    rw [joinedComment, hlayout, joinedUnits, hput]
    decide
  have hagain : (f.layout { c with comment := some "/* x */".toList }).value = ["CMD A(1) /* x */".toList] := by
    rw [value_layout_comment rfl,
      show f.putUnits { c with comment := some "/* x */".toList } longLiteral = _ from hput]
    decide
  refine ⟨hparse, by rw [hlayout], by rw [hlayout], hcomment, ?_⟩
  rw [hcomment, hagain, hlayout]
  decide

end

end Format

end ControlLanguage
