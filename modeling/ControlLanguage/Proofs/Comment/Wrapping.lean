import ControlLanguage.Proofs.Comment.Words
import ControlLanguage.Proofs.Lines.Join
import ControlLanguage.Proofs.Lines.Margin

/-!
# Wrapping a comment

Joined again, the lines of a comment are the line in front of it with the
comment behind a blank. A comment that is written anew keeps its words, also
those that are cut, and has single blanks between them.
-/

namespace ControlLanguage

section
variable {w : Text}

theorem Unspaced.take (h : Unspaced w) {n : Nat} (hn : 0 < n) : Unspaced (w.take n) := by
  refine ⟨?_, fun c hc => h.not_isSpace c (List.mem_of_mem_take hc)⟩
  rw [Ne, List.take_eq_nil_iff, not_or]
  exact ⟨Nat.ne_of_gt hn, h.ne_nil⟩

theorem Unspaced.drop (h : Unspaced w) {n : Nat} (hn : n < w.length) : Unspaced (w.drop n) := by
  refine ⟨?_, fun c hc => h.not_isSpace c (List.mem_of_mem_drop hc)⟩
  rw [Ne, List.drop_eq_nil_iff, Nat.not_le]
  exact hn

end

namespace Format

variable {f : Format} {line word : Text} {words : List Text}

/-! ## Words -/

theorem putFirstWord_writes (hroom : line.length + closingRoom < f.rightMargin) (hw : Unspaced word) :
    Writes f line word (f.putFirstWord line word).value := by
  have hindent := f.length_indent_le
  simp only [commentRoom, closingRoom] at hindent hroom
  fun_induction f.putFirstWord line word with
  | case1 line word => exact .here (dropBlanks_append_of_head hw.head?_ne _)
  | case2 line word hlong room ih =>
    simp only [closingRoom] at hlong
    -- at least one character is placed and at least one is left
    have hpos : 0 < room := by simp only [room]; omega
    have hlt : room < word.length := by simp only [room, closingRoom]; omega
    have hrest := ih (by omega) (hw.drop hlt)
    have hnext := hrest.next (dropBlanks_append_of_head (hw.take hpos).head?_ne line) (hw.drop hlt).ne_nil
    rwa [List.take_append_drop] at hnext

theorem putWord_writes (hl : Closes line) (hw : Unspaced word) :
    Writes f line (' ' :: word) (f.putWord line word).value := by
  have hindent := f.length_indent_le
  simp only [commentRoom] at hindent
  unfold putWord
  split
  · exact .here (dropBlanks_append_of_closes hl _)
  · have hrest : Writes f f.indent word (f.putFirstWord f.indent word).value :=
      putFirstWord_writes (by rw [closingRoom]; omega) hw
    have hnext := hrest.next (dropBlanks_append_of_closes hl [' ']) hw.ne_nil
    rwa [List.append_assoc] at hnext

theorem putWords_writes (hl : Closes line) (hw : ∀ w ∈ words, Unspaced w) :
    Writes f line (words.flatMap (' ' :: ·)) (f.putWords line words).value := by
  induction words generalizing line with
  | nil => exact .nothing f line
  | cons w ws ih =>
    obtain ⟨hw, hws⟩ := List.forall_mem_cons.mp hw
    have hword : Writes f line (' ' :: w) (f.putWord line w).value := putWord_writes hl hw
    have hrest := ih (hword.closes (hw.closes.append [' '])) hws
    cases ws with
    | nil => simpa [putWords] using hword
    | cons v vs => exact hword.trans hrest (by simp)

theorem putCommentWords_writes (hroom : line.length + closingRoom < f.rightMargin) (hw : ∀ w ∈ words, Unspaced w) :
    Writes f line (Text.unwords words) (f.putCommentWords line words).value := by
  cases words with
  | nil => exact .nothing f line
  | cons w ws =>
    obtain ⟨hw, hws⟩ := List.forall_mem_cons.mp hw
    have hword : Writes f line w (f.putFirstWord line w).value := putFirstWord_writes hroom hw
    have hrest : Writes f _ _ (f.putWords _ ws).value := putWords_writes (hword.closes hw.closes) hws
    rw [unwords_cons]
    cases ws with
    | nil => simpa [putCommentWords, putWords] using hword
    | cons v vs => exact hword.trans hrest (by simp)

/-! ## Comments -/

/-- What stands in front of a comment that is written anew: a line that ends there loses the white space at its end.
-/
def beforeComment (f : Format) (line : Text) : Text :=
  if (f.openComment line).lines = [] then line else Text.trimRight line

theorem openComment_cases (f : Format) (line : Text) :
    line.length + 4 + closingRoom + leastCommentRoom ≤ f.rightMargin ∧ f.beforeComment line = line ∧
      f.openComment line = ⟨[], line ++ ' ' :: commentStart ++ [' ']⟩ ∨
    f.rightMargin < line.length + 4 + closingRoom + leastCommentRoom ∧ f.beforeComment line = Text.trimRight line ∧
      f.openComment line = ⟨[f.endLine line], f.indent ++ commentStart ++ [' ']⟩ := by
  have hlength : (' ' :: commentStart ++ [' ']).length = 4 := rfl
  unfold beforeComment openComment
  simp only [hlength]
  split
  · next hroom => exact .inl ⟨hroom, rfl, by rw [List.cons_append, List.append_assoc, List.cons_append]⟩
  · next hroom => exact .inr ⟨Nat.lt_of_not_le hroom, rfl, rfl⟩

theorem continued_openComment (f : Format) (line : Text) :
    ∀ l ∈ (f.openComment line).lines, l.getLast? = some f.continuation := by
  rcases f.openComment_cases line with ⟨-, -, hopen⟩ | ⟨-, -, hopen⟩
  · simp [hopen]
  · rw [hopen, List.forall_mem_singleton, endLine, List.getLast?_append]; rfl

theorem joinLines_openComment (f : Format) (lines : List Text) (line : Text) :
    joinLines (lines ++ ((f.openComment line).lines ++ [(f.openComment line).line])) =
      joinLines (lines ++ [f.beforeComment line ++ ' ' :: commentStart ++ [' ']]) := by
  rcases f.openComment_cases line with ⟨-, hbefore, hopen⟩ | ⟨-, hbefore, hopen⟩
  · rw [hbefore, hopen]; rfl
  · have hhead : (commentStart ++ [' ']).head? ≠ some ' ' := by decide
    have hline : dropBlanks (f.indent ++ (commentStart ++ [' '])) = commentStart ++ [' '] := by
      rw [dropBlanks_append_of_head hhead, indent, dropBlanks_blanks]; rfl
    have hnext := joinLines_continue lines (Text.trimRight line ++ [' '])
      (f.indent ++ (commentStart ++ [' '])) f.continuation
    rw [hline, ← joinLines_append (dropBlanks_append_of_head hhead _)] at hnext
    rw [hbefore, hopen, endLine]
    simpa using hnext

theorem slash_mem_openComment (f : Format) (line : Text) : '/' ∈ (f.openComment line).line := by
  rcases f.openComment_cases line with ⟨-, -, hopen⟩ | ⟨-, -, hopen⟩
  · rw [hopen]; simp [commentStart]
  · rw [hopen]; simp [commentStart]

theorem joinLines_closeComment (f : Format) (lines : List Text) (line comment : Text) :
    let opened := f.openComment line
    let p := (f.putCommentWords opened.line (wordsOfComment comment)).value
    joinLines (lines ++ (opened.lines ++ p.lines ++ [p.line ++ ' ' :: commentEnd])) =
      joinLines (lines ++ (opened.lines ++ [opened.line])) ++
        (Text.unwords (wordsOfComment comment) ++ ' ' :: commentEnd) := by
  intro opened p
  have hwords : ∀ w ∈ wordsOfComment comment, Unspaced w := fun _ => unspaced_of_mem_wordsOfComment
  have hwrites : Writes f opened.line _ p := putCommentWords_writes (f.openComment_within line).2 hwords
  have hclose : dropBlanks (p.line ++ ' ' :: commentEnd) = dropBlanks p.line ++ ' ' :: commentEnd := by
    by_cases hn : wordsOfComment comment = []
    · have hline : p.line = opened.line := by simp only [p, hn, putCommentWords, Logged.value_pure]
      rw [hline]
      exact dropBlanks_append_of_mem (f.slash_mem_openComment line) (by decide) _
    · have hcloses : Closes p.line := hwrites.closes (closes_unwords hn fun w hw => (hwords w hw).closes)
      exact dropBlanks_append_of_closes hcloses _
  have hjoined := hwrites.joined (lines ++ opened.lines)
  simp only [← List.append_assoc] at hjoined ⊢
  rw [joinLines_append hclose, hjoined]

theorem putComment_joins (f : Format) (line comment : Text) :
    (∀ l ∈ (f.putComment line comment).value.lines, l.getLast? = some f.continuation) ∧
    ∀ lines,
    joinLines (lines ++ ((f.putComment line comment).value.lines ++ [(f.putComment line comment).value.line])) =
      joinLines (lines ++ [if line.length + 1 + comment.length ≤ f.rightMargin then line ++ ' ' :: comment
        else f.beforeComment line ++ ' ' :: respaced comment]) := by
  unfold putComment
  split
  · exact ⟨by simp, fun lines => rfl⟩
  · have hwords : ∀ w ∈ wordsOfComment comment, Unspaced w := fun _ => unspaced_of_mem_wordsOfComment
    have hwrites : Writes f _ _ _ := putCommentWords_writes (f.openComment_within line).2 hwords
    simp only [Logged.value_bind, Logged.value_pure]
    refine ⟨List.forall_mem_append.mpr ⟨f.continued_openComment line, hwrites.continued⟩, fun lines => ?_⟩
    have hslash : '/' ∈ f.beforeComment line ++ ' ' :: commentStart ++ [' '] := by simp [commentStart]
    rw [joinLines_closeComment, joinLines_openComment,
      ← joinLines_append (dropBlanks_append_of_mem hslash (by decide) _)]
    simp [respaced]

/-- The joined lines of a comment are the line in front of it and the comment as it is, or its words with single
blanks between them. -/
theorem joinLines_putComment (f : Format) (line comment : Text) :
    let p := (f.putComment line comment).value
    (∀ l ∈ p.lines, l.getLast? = some f.continuation) ∧
      joinLines (p.lines ++ [p.line]) =
        if line.length + 1 + comment.length ≤ f.rightMargin then line ++ ' ' :: comment
        else (if (f.openComment line).lines = [] then line else Text.trimRight line) ++ " /* ".toList ++
          Text.unwords (wordsOfComment comment) ++ " */".toList := by
  intro p
  obtain ⟨hcontinued, hjoins⟩ := f.putComment_joins line comment
  refine ⟨hcontinued, ?_⟩
  rw [← List.nil_append (p.lines ++ [p.line]), hjoins, List.nil_append, joinLines_singleton]
  split
  · rfl
  · rw [beforeComment, respaced, commentStart, commentEnd]
    simp only [List.append_assoc]
    rfl

end Format

end ControlLanguage
