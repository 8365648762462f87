import ControlLanguage.Proofs.Source

/-!
# What a comment takes from its text

A text is the part in front of its comment, white space, the comment and a
rest. The comment starts outside of literals; its end is the next `*/`,
wherever that stands, and what is behind it is dropped with the comment:
`takeComment_parts`.
-/

namespace ControlLanguage

/-! ## The end of a comment -/

section
variable {needle t : Text} {i : Nat}

theorem Text.find?_eq_some (hn : needle ≠ []) (h : find? needle t 0 = some i) :
    ∃ a b, t = a ++ (needle ++ b) ∧ i = a.length ∧ ¬needle <:+: a := by
  induction t generalizing i with
  | nil =>
    rw [find?, if_neg (mt List.isEmpty_iff.mp hn)] at h
    cases h
  | cons c t ih =>
    rw [find?] at h
    split at h
    · next hp =>
      obtain ⟨b, hb⟩ := List.isPrefixOf_iff_prefix.mp hp
      exact ⟨[], b, hb.symm, (Option.some.inj h).symm, mt List.infix_nil.mp hn⟩
    · next hp =>
      obtain ⟨j, hj, rfl⟩ := Option.map_eq_some_iff.mp h
      obtain ⟨a, b, rfl, rfl, ha⟩ := ih hj
      refine ⟨c :: a, b, rfl, rfl, fun hin => ?_⟩
      rcases List.infix_cons_iff.mp hin with hstart | hin
      · exact hp (List.isPrefixOf_iff_prefix.mpr (hstart.trans (List.prefix_append (c :: a) _)))
      · exact ha hin

theorem Text.find?_eq_none (hn : needle ≠ []) (h : find? needle t 0 = none) : ¬needle <:+: t := by
  induction t with
  | nil => exact mt List.infix_nil.mp hn
  | cons c t ih =>
    rw [find?] at h
    split at h
    · cases h
    · next hp =>
      intro hin
      rcases List.infix_cons_iff.mp hin with hstart | hin
      · exact hp (List.isPrefixOf_iff_prefix.mpr hstart)
      · exact ih (Option.map_eq_none_iff.mp h) hin

end

/-- The comment `k` with which a text starts: it ends at the first `*/` behind its start, or it has no end and only
white space is left behind it. -/
def IsCommentOf (t k rest : Text) : Prop :=
  t = k ++ rest ∧ ∃ m, ¬commentEnd <:+: m ∧
    (k = commentStart ++ (m ++ commentEnd) ∨ k = commentStart ++ m ∧ ∀ c ∈ rest, isSpace c = true)

theorem find?_commentEnd (b : Text) : Text.find? commentEnd (commentStart ++ b) commentStart.length =
    (Text.find? commentEnd b 0).map (· + 2) := by
  change ((Text.find? commentEnd b 0).map (· + 1)).map (· + 1) = _
  rw [Option.map_map]; rfl

theorem trimRight_commentStart (b : Text) :
    Text.trimRight (commentStart ++ b) = commentStart ++ Text.trimRight b := by
  cases h : Text.trimRight b with
  | nil =>
    rw [Text.trimRight_eq_nil_iff] at h
    rw [trimRight_append_spaces h]; rfl
  | cons d ds =>
    change Text.trimRight ('/' :: '*' :: b) = _
    rw [Text.trimRight, Text.trimRight, h]; rfl

theorem take_closedComment (m rest : Text) :
    (commentStart ++ (m ++ (commentEnd ++ rest))).take (m.length + 2 + commentEnd.length) =
      commentStart ++ (m ++ commentEnd) := by
  have hlen : (commentStart ++ (m ++ commentEnd)).length = m.length + 2 + commentEnd.length := by
    rw [List.length_append, List.length_append, show commentStart.length = 2 from rfl]; omega
  rw [← List.append_assoc m, ← List.append_assoc]
  exact List.take_left' hlen

theorem isCommentOf_closed {b : Text} {i : Nat} (h : Text.find? commentEnd b 0 = some i) :
    ∃ rest, IsCommentOf (commentStart ++ b) ((commentStart ++ b).take (i + 2 + commentEnd.length)) rest := by
  obtain ⟨m, rest, rfl, rfl, hm⟩ := Text.find?_eq_some (by decide) h
  rw [take_closedComment]
  exact ⟨rest, by simp only [List.append_assoc], m, hm, .inl rfl⟩

theorem isCommentOf_unclosed {b : Text} (h : Text.find? commentEnd b 0 = none) :
    ∃ rest, IsCommentOf (commentStart ++ b) (Text.trimRight (commentStart ++ b)) rest := by
  obtain ⟨rest, hb, hspace⟩ := Text.trimRight_prefix b
  have hm : ¬commentEnd <:+: Text.trimRight b := fun hin =>
    Text.find?_eq_none (by decide) h (hin.trans ⟨[], rest, by rw [List.nil_append]; exact hb.symm⟩)
  rw [trimRight_commentStart]
  exact ⟨rest, by rw [List.append_assoc, ← hb], _, hm, .inr ⟨rfl, hspace⟩⟩

/-! ## Its start -/

section
variable {text : Text} {start : Nat}

theorem inLiteralAt_append (a : Text) (x : Char) (b : Text) : inLiteralAt (a ++ x :: b) a.length =
    ((Nesting.start.after (some x) a).step x b.head?).1.inLiteral := by
  rw [inLiteralAt, marks_eq, marksFrom_append, List.head?_cons, List.getElem?_append_right
    (Nat.le_of_eq (length_marksBefore ..)), length_marksBefore, Nat.sub_self]
  rfl

theorem exists_of_findOutside? (h : findOutside? (' ' :: commentStart) text = some start) :
    ∃ a b, text = a ++ ' ' :: (commentStart ++ b) ∧ start = a.length ∧
      (Nesting.start.after (some ' ') a).mode = .outside := by
  rw [findOutside?, Option.map_eq_some_iff] at h
  obtain ⟨m, hm, rfl⟩ := h
  obtain ⟨hplace, -⟩ := List.find?_eq_some_iff_append.mp hm
  obtain ⟨a, x, b, rfl, hi, hr⟩ := mem_marksFrom (List.mem_of_find?_eq_some hm)
  rw [Nat.zero_add] at hi
  rw [hi, List.drop_left, Bool.and_eq_true, Bool.not_eq_true', List.isPrefixOf_iff_prefix] at hplace
  obtain ⟨hlit, b', hb'⟩ := hplace
  obtain ⟨rfl, rfl⟩ := List.cons.inj hb'
  refine ⟨a, b', rfl, hi, ?_⟩
  by_contra hmode
  rw [hr, Nesting.inLiteral_of_inside hmode] at hlit
  cases hlit

/-- In front of a comment the text keeps everything but white space, and the comment keeps everything up to its end.
-/
theorem takeComment_parts (h : commentStart.isPrefixOf (Text.trimLeft text) = false) :
    findOutside? (' ' :: commentStart) (takeComment text).1 = none ∧
    ((takeComment text).2 = none → (takeComment text).1 = Text.trimRight text) ∧
    ∀ k, (takeComment text).2 = some k → ∃ gap t rest, text = (takeComment text).1 ++ gap ++ t ∧
      gap ≠ [] ∧ (∀ c ∈ gap, isSpace c = true) ∧
      inLiteralAt text ((takeComment text).1 ++ gap).length = false ∧ IsCommentOf t k rest := by
  refine ⟨findOutside?_commentStart_iff.mpr (noComment_takeComment text), fun hnone => ?_, fun k hk => ?_⟩
  · exact takeComment_none (Prod.ext rfl hnone)
  · rw [takeComment, if_neg (by simp [h])] at hk ⊢
    split at hk
    · cases hk
    · next start hstart =>
      obtain ⟨a, b, rfl, rfl, hmode⟩ := exists_of_findOutside? hstart
      obtain ⟨gap, ha, hgap⟩ := Text.trimRight_prefix a
      have hbody : (a ++ ' ' :: (commentStart ++ b)).drop (a.length + 1) = commentStart ++ b := by
        rw [← List.drop_drop, List.drop_left]; rfl
      obtain ⟨rest, hrest⟩ : ∃ rest, IsCommentOf (commentStart ++ b) k rest := by
        simp only [hbody, find?_commentEnd, Option.some.injEq] at hk
        subst hk
        cases hfind : Text.find? commentEnd b 0 with
        | none => exact isCommentOf_unclosed hfind
        | some i => exact isCommentOf_closed hfind
      simp only [List.take_left]
      refine ⟨gap ++ [' '], commentStart ++ b, rest, ?_, by simp, ?_, ?_, hrest⟩
      · conv_lhs => rw [ha]
        simp only [List.append_assoc, List.singleton_append]
      · rw [List.forall_mem_append, List.forall_mem_singleton]
        exact ⟨hgap, by decide⟩
      · have hplace := inLiteralAt_append (a ++ [' ']) '/' ('*' :: b)
        rw [Nesting.after_snoc, List.append_assoc] at hplace
        rw [← List.append_assoc, ← ha]
        refine hplace.trans ?_
        -- the blank in front of the comment leaves the scan outside of literals
        generalize Nesting.start.after (some ' ') a = n at hmode
        obtain ⟨mode, d⟩ := n
        obtain rfl : mode = .outside := hmode
        rfl

/-- A quoted `/*` starts no comment, and the one behind it takes a `*/` in a literal for its end. -/
theorem takeComment_parts_literal : ∃ gap t rest,
    "CMD A(' /*') /* B('*/') ".toList = "CMD A(' /*')".toList ++ gap ++ t ∧ gap ≠ [] ∧
      (∀ c ∈ gap, isSpace c = true) ∧
      inLiteralAt "CMD A(' /*') /* B('*/') ".toList ("CMD A(' /*')".toList ++ gap).length = false ∧
      IsCommentOf t "/* B('*/".toList rest :=
  (@takeComment_parts "CMD A(' /*') /* B('*/') ".toList (by decide)).2.2 _ (by decide)

/-- A parameter behind the comment is in neither part: what is left of the text is more than white space. -/
theorem takeComment_parts_behind :
    takeComment "CMD A(1) /* c */ B(2)".toList = ("CMD A(1)".toList, some "/* c */".toList) ∧
    ∀ gap rest, "CMD A(1) /* c */ B(2)".toList = "CMD A(1)".toList ++ gap ++ ("/* c */".toList ++ rest) →
      ∃ x ∈ rest, isSpace x = false := by
  refine ⟨by decide, fun gap rest h => ⟨')', ?_, by decide⟩⟩
  have hlast := congrArg List.getLast? h
  rw [List.getLast?_append, List.getLast?_append] at hlast
  rcases List.eq_nil_or_concat rest with rfl | ⟨init, x, rfl⟩
  · cases hlast.trans (show _ = some '/' from rfl)
  · rw [List.concat_eq_append, List.getLast?_concat] at hlast
    obtain rfl : ')' = x := Option.some.inj hlast
    simp

end

end ControlLanguage
