import ControlLanguage.Proofs.Form.Parse
import ControlLanguage.Proofs.Quoting

/-!
# Quoted values in commands

What a user typed does not leave the literal that was made of it: a command
with the literal as its only value is read with the literal as the value of
this one parameter, and with no label and no comment.
-/

namespace ControlLanguage

open Token Value

section
variable {q v name keyword : Text} {allowed : List Text} {declared : Text}

/-! ## The token of a literal -/

theorem stands_literal (h : isQuoted q = true) {rest : Text} (hr : rest.head? ≠ some '\'') (pos : Nat) :
    (Token.mk .string q pos).Stands rest := by
  obtain ⟨u, hu⟩ := List.head?_eq_some_iff.mp (head?_literal h)
  subst hu
  have hend := endOfLiteral_literal h hr
  refine ⟨'\'', u, rfl, ?_, by simp⟩
  rw [List.cons_append] at hend
  rw [kindAt_false, if_neg (by decide), if_neg (by decide), if_neg (by decide), if_pos (.inl rfl), hend]
  rfl

def literalTokens (keyword q : Text) : List Token :=
  Token.blank :: ⟨.keyword, keyword, 0⟩ :: (openParen :: [⟨.string, q, 0⟩] ++ [closeParen])

theorem joinTokens_literalTokens : joinTokens (literalTokens keyword q) = ' ' :: parameterText keyword q := by
  simp [literalTokens, joinTokens, parameterText, inParens, openParen, closeParen, Token.blank]

theorem reads_literalTokens (hk : Word.isName keyword = true) (h : isQuoted q = true) :
    Reads (literalTokens keyword q) [] := by
  have hname : Stands ⟨.keyword, keyword, 0⟩
      (joinTokens (openParen :: [⟨.string, q, 0⟩] ++ [closeParen]) ++ []) := by
    rw [joinTokens_span]
    exact stands_keyword 0 hk rfl
  refine ⟨stands_blank ?_, hname, reads_span ⟨stands_literal h (by simp [joinTokens]) 0, trivial⟩ trivial⟩
  rw [joinTokens_cons, List.append_assoc]
  exact hname.next_isBlank rfl _

theorem allClosed_literalTokens (h : isQuoted q = true) : AllClosed (literalTokens keyword q) := by
  have hclosed : (Token.mk .string q 0).isClosedLiteral = true := by
    rw [isQuoted, Bool.and_eq_true] at h
    exact h.2
  intro t ht hk
  simp only [literalTokens, List.cons_append, List.nil_append, List.mem_cons, List.not_mem_nil, or_false] at ht
  rcases ht with rfl | rfl | rfl | rfl | rfl
  · cases hk
  · cases hk
  · cases hk
  · exact hclosed
  · cases hk

theorem bindingsOf_literalTokens (keyword q : Text) :
    BindingsOf false 0 (literalTokens keyword q) [⟨keyword.upper, .scalar q⟩] := by
  have hparens : NoParens [⟨.string, q, 0⟩] := by simp [NoParens]
  have hgroups : GroupsOf [⟨.string, q, 0⟩] [.scalar q] :=
    @GroupsOf.run ⟨.string, q, 0⟩ [] [] [] rfl (by simp) (hparens.runOf false) .nil
  exact .space rfl (.groups rfl rfl hparens.balanced rfl hparens.nestedCall? hgroups .nil)

/-! ## The command that is read -/

theorem eq_of_mapTokens_scalar {f : Bool → List Token → List Token} {bs : List (Binding Value)}
    (h : mapTokensOfBindings f bs = [⟨keyword, .scalar q⟩]) : bs = [⟨keyword, .scalar q⟩] := by
  match bs with
  | [] => cases h
  | [⟨k, u⟩] =>
    cases u with
    | scalar => exact h
    | group => cases h
    | expression => cases h
    | nested => cases h
  | _ :: _ :: _ => simp [mapTokensOfBindings] at h

theorem Command.parse_scalar (hname : Word.isCommand name = true) (hk : Word.isName keyword = true)
    (h : isQuoted q = true) : Command.parse (name ++ ' ' :: parameterText keyword q) =
      .ok { name := name.upper, bindings := [⟨keyword.upper, .scalar q⟩] } := by
  have hspace := Word.not_isSpace_of_isCommand hname
  have hcolon : ':' ∉ name := Word.not_mem_of_isCommand hname (by decide) (by decide) (by decide)
  have hlabel : takeLabel (name ++ ' ' :: parameterText keyword q) =
      (none, name ++ ' ' :: parameterText keyword q) :=
    takeLabel_of_not_mem (Word.ne_nil_of_isCommand hname) hspace hcolon (.inr ⟨_, rfl⟩)
  have hvalue : IsValueText q := by
    have := IsValueText.words (List.cons_ne_nil q []) (by simpa using isWord_of_isQuoted h)
    rwa [unwords_singleton] at this
  have hcomment : takeComment (name ++ [(keyword, q)].flatMap _) = _ :=
    takeComment_parameters hname (by simpa using ⟨hk, hvalue⟩)
  rw [List.flatMap_singleton] at hcomment
  rw [← joinTokens_literalTokens] at hlabel hcomment ⊢
  obtain ⟨cs, hparse, he⟩ := parse_bindings hname (reads_literalTokens hk h) (allClosed_literalTokens h)
    (bindingsOf_literalTokens keyword q) (by rw [joinTokens_literalTokens]; rfl) hcomment hlabel
  rw [hparse]
  -- a literal has no place that could differ
  rw [eq_of_mapTokens_scalar he]

/-- A value that is quoted becomes one literal, from which the value can be read again, and a command takes the
literal as one value, whatever stands in it. -/
theorem Command.parse_literal (hs : literal v allowed declared ≠ v)
    (ht : literal v allowed declared ≠ Text.trim v) :
    isQuoted (literal v allowed declared) = true ∧
      undoubleQuotes ((literal v allowed declared).drop 1).dropLast = quotedContent (Text.trim v) ∧
        ∀ name keyword, Word.isCommand name = true → Word.isName keyword = true →
          Command.parse (name ++ ' ' :: (keyword ++ inParens (literal v allowed declared))) =
            .ok { name := name.upper, bindings := [⟨keyword.upper, .scalar (literal v allowed declared)⟩] } := by
  rw [literal_eq_quote hs ht]
  refine ⟨isQuoted_quote _, ?_, fun name keyword hname hk => parse_scalar hname hk (isQuoted_quote _)⟩
  rw [quote_eq, List.drop_one, List.tail_cons, List.dropLast_concat, undoubleQuotes_doubleQuotes]

theorem Command.parse_literal_comment :
    let v := " it's) /* L: ('' ".toList
    let q := "'it''s) /* L: ('''''".toList
    literal v = q ∧ Command.parse ("lib/cmd text".toList ++ inParens q) =
      .ok { name := "LIB/CMD".toList, bindings := [⟨"TEXT".toList, .scalar q⟩] } := by
  have hliteral : literal " it's) /* L: ('' ".toList = "'it''s) /* L: ('''''".toList := by with_unfolding_all decide
  obtain ⟨-, -, hparse⟩ := @Command.parse_literal " it's) /* L: ('' ".toList [] []
    (by rw [hliteral]; decide) (by rw [hliteral]; decide)
  rw [hliteral] at hparse
  exact ⟨hliteral, hparse "lib/cmd".toList "text".toList (by decide) (by decide)⟩

end

end ControlLanguage
