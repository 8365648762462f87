import ControlLanguage.Lines.Comment
import ControlLanguage.Proofs.Words

/-!
# The words of a comment

A comment that is written anew keeps its words. They have no white space in
them, so with blanks between them they are read as the same words again.
-/

namespace ControlLanguage

theorem unspaced_of_mem_wordsOfComment {comment w : Text} (h : w ∈ wordsOfComment comment) : Unspaced w :=
  Text.unspaced_of_mem_words h

/-! ## Comments -/

theorem trim_comment (body : Text) :
    Text.trim (commentStart ++ body ++ commentEnd) = commentStart ++ body ++ commentEnd := by
  apply trim_eq_self
  · intro c hc
    obtain rfl : '/' = c := Option.some.inj hc
    decide
  · intro c hc
    rw [List.getLast?_append] at hc
    obtain rfl : '/' = c := Option.some.inj hc
    decide

theorem wordsOfComment_comment (body : Text) :
    wordsOfComment (commentStart ++ body ++ commentEnd) = Text.words body := by
  have hstart : commentStart.isPrefixOf (commentStart ++ (body ++ commentEnd)) = true :=
    List.isPrefixOf_iff_prefix.mpr (List.prefix_append ..)
  have hend : commentEnd.isSuffixOf (body ++ commentEnd) = true :=
    List.isSuffixOf_iff_suffix.mpr (List.suffix_append ..)
  rw [wordsOfComment, trim_comment, List.append_assoc]
  simp only [hstart, if_true, List.drop_left, hend, List.length_append, Nat.add_sub_cancel, List.take_left]

/-- A comment as it is written anew, with single blanks around its words. -/
def respaced (comment : Text) : Text :=
  commentStart ++ (' ' :: Text.unwords (wordsOfComment comment) ++ [' ']) ++ commentEnd

theorem wordsOfComment_respaced (comment : Text) : wordsOfComment (respaced comment) = wordsOfComment comment := by
  have hwords : ∀ w ∈ wordsOfComment comment, Unspaced w := fun _ => unspaced_of_mem_wordsOfComment
  have hblank : ∀ c ∈ [' '], isSpace c = true := List.forall_mem_singleton.mpr rfl
  rw [respaced, wordsOfComment_comment]
  cases hw : wordsOfComment comment with
  | nil => exact Text.words_eq_nil (List.forall_mem_cons.mpr ⟨rfl, hblank⟩)
  | cons w ws => rw [cons_unwords, Text.words_flatMap (hw ▸ hwords) hblank]

end ControlLanguage
