import ControlLanguage.Proofs.Comment.Rendering

/-!
# Where a comment in a canonical text comes from

A comment that only the canonical text has was written without a blank in
front of it: its slash and star follow a tab or a closing parenthesis in the
text that the command was read from.
-/

namespace ControlLanguage

open Token

/-! ## Tokens -/

/-- Tokens among which the start of a comment follows a space or a closing parenthesis. -/
def CommentBehind (ts : List Token) : Prop :=
  ∃ front t later, ts = front ++ t :: later ∧ (t.isSpace = true ∨ t.kind = .parenClose) ∧
    commentStart <+: joinTokens later

section
variable {t p q : Token} {ts us inner : List Token} {rest : Text}

theorem CommentBehind.append_left (us : List Token) (h : CommentBehind ts) : CommentBehind (us ++ ts) := by
  obtain ⟨front, t, later, rfl, ht, hc⟩ := h
  exact ⟨us ++ front, t, later, by rw [List.append_assoc], ht, hc⟩

theorem CommentBehind.append_right (us : List Token) (h : CommentBehind ts) : CommentBehind (ts ++ us) := by
  obtain ⟨front, t, later, rfl, ht, hc⟩ := h
  refine ⟨front, t, later ++ us, by rw [List.append_assoc, List.cons_append], ht, ?_⟩
  rw [joinTokens_append]
  exact hc.trans (List.prefix_append ..)

theorem commentBehind_cons (ht : t.isSpace = true ∨ t.kind = .parenClose)
    (h : commentStart <+: joinTokens ts ∨ CommentBehind ts) : CommentBehind (t :: ts) := by
  rcases h with h | h
  · exact ⟨[], t, ts, rfl, ht, h⟩
  · exact h.append_left [t]

theorem commentBehind_of_space (h : commentBehindSpace ts = true) : CommentBehind ts := by
  induction ts with
  | nil => cases h
  | cons t ts ih =>
    rw [commentBehindSpace, Bool.or_eq_true, Bool.and_eq_true] at h
    rcases h with ⟨ht, hc⟩ | h
    · exact commentBehind_cons (.inl ht) (.inl (List.isPrefixOf_iff_prefix.mp hc))
    · exact (ih h).append_left [t]

theorem not_comment_of_head {w : Text} (h : w.head? ≠ some '/') : ¬commentStart <+: w := by
  rintro ⟨u, rfl⟩
  exact h rfl

theorem not_comment_of_delimited {w : Text} (h : startsDelimited w = true) : ¬commentStart <+: w := by
  apply not_comment_of_head
  intro hw
  rw [startsDelimited, hw] at h
  exact absurd h (by decide)

namespace Value

variable {v : Value} {vs : List Value}

/-! ## Groups -/

theorem commentBehind_item (hstart : commentStart <+: v.text → commentStart <+: joinTokens (us ++ ts))
    (hopens : v.opensComment = true → CommentBehind us)
    (hnext : (∃ w ∈ vs, commentStart <+: w.text ∨ w.opensComment = true) → CommentBehind (us ++ ts)) :
    ((∃ w ∈ v :: vs, commentStart <+: w.text ∨ w.opensComment = true) →
      commentStart <+: joinTokens (us ++ ts) ∨ CommentBehind (us ++ ts)) ∧
      ((ofGroups (v :: vs)).opensComment = true → CommentBehind (us ++ ts)) := by
  constructor
  · rintro ⟨w, hw, h⟩
    rcases List.mem_cons.mp hw with rfl | hw
    · exact h.imp hstart fun h => (hopens h).append_right ts
    · exact .inr (hnext ⟨w, hw, h⟩)
  · rw [opensComment_ofGroups_cons, Bool.or_eq_true, List.any_eq_true]
    rintro (h | ⟨w, hw, h⟩)
    · exact (hopens h).append_right ts
    · rw [Bool.or_eq_true, List.isPrefixOf_iff_prefix] at h
      exact hnext ⟨w, hw, h⟩

theorem GroupsOf.commentBehind (h : GroupsOf ts vs) (hr : Reads ts (')' :: rest)) :
    ((∃ v ∈ vs, commentStart <+: v.text ∨ v.opensComment = true) →
      commentStart <+: joinTokens ts ∨ CommentBehind ts) ∧
      ((ofGroups vs).opensComment = true → CommentBehind ts) := by
  induction h with
  | nil => simp [ofGroups, opensComment]
  | space hs _ ih =>
    obtain ⟨hitems, hgroups⟩ := ih hr.2
    exact ⟨fun h => .inr (commentBehind_cons (.inl hs) (hitems h)), fun h => (hgroups h).append_left [_]⟩
  | @span p inner q ts vs hp hb hq _ ih =>
    obtain ⟨hspan, hclose, hrest⟩ := reads_append.mp hr
    rw [List.append_cons]
    refine commentBehind_item (fun h => ?_) (fun h => ?_) fun h => ?_
    · exact absurd h (not_comment_of_head (by simp [text]))
    · exact ((commentBehind_of_space h).append_left [p]).append_right [q]
    · rw [← List.append_cons]
      exact (commentBehind_cons (.inr hq) ((ih hrest).1 h)).append_left _
  | @run t run ts vs hs ho hrun hg ih =>
    obtain ⟨hreads, hrest⟩ := reads_append.mp hr
    obtain ⟨sp, hsplit, -⟩ := exists_dropTrailingSpaces (t :: run)
    refine commentBehind_item (fun h => ?_) (fun h => ?_) fun h => ?_
    · rw [text_ofRun] at h
      rw [hsplit, List.append_assoc, joinTokens_append]
      exact h.trans (List.prefix_append ..)
    · rw [opensComment_ofRun] at h
      rw [hsplit]
      exact (commentBehind_of_space h).append_right sp
    · refine (((ih hrest).1 h).resolve_left ?_).append_left _
      -- behind a run only a parenthesis can stand
      apply not_comment_of_head
      rcases hrun.rest_of_stopsAtGroup with rfl | ⟨⟨p, ps, rfl, hp⟩, -⟩
      · simp [joinTokens]
      · rw [joinTokens_cons, hrest.1.parenOpen hp]
        simp

/-! ## Bindings -/

section
variable {seen : Bool} {n : Nat} {name : Text} {bs : List (Binding Value)}

theorem commentBehind_keyword (hn : Word.isName name = true) (hq : q.kind = .parenClose)
    (hv : v.opensComment = true → CommentBehind us)
    (hbs : opensCommentInBindings bs = true → commentStart <+: joinTokens ts ∨ CommentBehind ts)
    (h : opensCommentInBindings (⟨name, v⟩ :: bs) = true) : CommentBehind (t :: p :: (us ++ q :: ts)) := by
  rw [opensCommentInBindings, Bool.or_eq_true, Bool.or_eq_true] at h
  rcases h with (h | h) | h
  · rw [bindingText, Word.not_isPlaceholder_of_isName hn, if_neg Bool.false_ne_true, List.append_assoc,
      (not_comment_of_isCommand (Word.isCommand_of_isName hn) _).1] at h
    cases h
  · exact ((hv h).append_left [t, p]).append_right (q :: ts)
  · exact (commentBehind_cons (.inr hq) (hbs h)).append_left (t :: p :: us)

theorem commentBehind_positional {run : List Token} (h : (ofPositional run).opensComment = true) :
    CommentBehind run := by
  rcases ofPositional_cases run with ⟨p, inner, q, rfl, -, -, -, hv⟩ | hv
  · rw [hv] at h
    exact ((commentBehind_of_space h).append_left [p]).append_right [q]
  · rw [hv, opensComment_ofRun] at h
    exact commentBehind_of_space h

theorem BindingsOf.commentBehind (h : BindingsOf seen n ts bs) (hr : Reads ts rest)
    (ho : opensCommentInBindings bs = true) : commentStart <+: joinTokens ts ∨ CommentBehind ts := by
  induction h generalizing rest with
  | nil => cases ho
  | space hs _ ih => exact .inr (commentBehind_cons (.inl hs) (ih hr.2 ho))
  | @groups seen n t p inner q ts vs bs ht hp hb hq hn hv _ ih =>
    obtain ⟨hri, hrq, hrr⟩ := reads_append.mp hr.2.2
    rw [joinTokens_cons, hrq.parenClose hq] at hri
    exact .inr (commentBehind_keyword (Word.isName_upper (hr.1.isName ht)) hq (hv.commentBehind hri).2 (ih hrr) ho)
  | @call seen n t p inner q ts name us cs bs ht hp hb hq hn _ _ ihc ih =>
    obtain ⟨hri, hrq, hrr⟩ := reads_append.mp hr.2.2
    obtain ⟨sp, u, hsplit, -⟩ := nestedCall?_split hn
    obtain ⟨-, gap, _, ws, -, rfl, -, hgap, -⟩ := nestedCall?_eq_some_iff.mp hn
    rw [hsplit] at hri
    have hus := (reads_append.mp hri).2.2
    have hblank := ((stands_space_iff (isSpace_iff.mp hgap)).mp hus.1).1
    refine .inr (commentBehind_keyword (Word.isName_upper (hr.1.isName ht)) hq (fun h => ?_) (ih hrr) ho)
    have hinner := (ihc hus h).resolve_left (not_comment_of_delimited (by rw [joinTokens_cons, hblank]; rfl))
    rw [hsplit]
    exact (hinner.append_left [u]).append_left sp
  | @positional n t run ts bs hs harg hrun hbs ih =>
    obtain ⟨hr1, hr2⟩ := reads_append.mp hr
    rw [opensCommentInBindings, Bool.or_eq_true, Bool.or_eq_true, bindingText,
      if_pos (isPlaceholder_placeholder _)] at ho
    rcases ho with (ho | ho) | ho
    · rw [text_ofPositional hr1, List.isPrefixOf_iff_prefix] at ho
      rw [joinTokens_append]
      exact .inl (ho.trans (List.prefix_append ..))
    · exact .inr ((commentBehind_positional ho).append_right ts)
    · refine .inr (((ih hr2 ho).resolve_left ?_).append_left _)
      apply not_comment_of_delimited
      rcases hrun.rest_of_stopsAtSpace with rfl | ⟨u, us, rfl, hu⟩
      · rfl
      · rw [joinTokens_cons, ((stands_space_iff (isSpace_iff.mp hu)).mp hr2.1).1]
        rfl

end

end Value

end

/-! ## Places in a text -/

theorem kindAt_slash (cs : Text) : kindAt false '/' cs = (.operator, 0) := by
  have hpair : next (fun d => pairOperators.contains ('/', d)) cs ≠ true := by
    cases cs with
    | nil => exact Bool.false_ne_true
    | cons d ds => simp [next, pairOperators]
  rw [kindAt_false, if_neg (by decide), if_neg (by decide), if_neg (by decide), if_neg (by decide),
    if_neg (fun h => absurd h.1 (by decide)), if_neg (fun h => absurd h.1 (by decide)),
    if_neg (fun h => absurd h.1 (by decide)), if_neg hpair, if_pos (by decide)]

theorem head?_of_joinTokens {pos : Nat} {t : Text} {x : Char} (hx : x ≠ ' ')
    (h : (joinTokens (readFrom false pos t)).head? = some x) : ∃ cs, t = x :: cs := by
  cases t with
  | nil => rw [readFrom_nil] at h; cases h
  | cons c cs =>
    rw [head_joinTokens, Option.some.injEq] at h
    split at h
    · exact absurd h.symm hx
    · exact ⟨cs, by rw [h]⟩

theorem commentStart_of_joinTokens {pos : Nat} {t : Text} (h : commentStart <+: joinTokens (readFrom false pos t)) :
    commentStart <+: t := by
  obtain ⟨u, hu⟩ := h
  obtain ⟨cs, rfl⟩ := head?_of_joinTokens (x := '/') (by decide) (by rw [← hu]; rfl)
  rw [readFrom_cons, kindAt_slash, joinTokens_cons] at hu
  have hstar := (List.cons.inj hu).2
  obtain ⟨ds, rfl⟩ := head?_of_joinTokens (x := '*') (by decide) (congrArg List.head? hstar.symm)
  exact ⟨ds, rfl⟩

/-- A place outside of literals where a slash and a star follow a character. -/
def CommentAt (t : Text) (x : Char) : Prop :=
  ∃ a b, t = a ++ x :: (commentStart ++ b) ∧ (Nesting.start.after (some x) a).mode = .outside

theorem CommentAt.append {a t : Text} {x : Char} (h : CommentAt t x) (ha : ∀ c ∈ a, isInert c = true) (b : Text) :
    CommentAt (a ++ t ++ b) x := by
  obtain ⟨u, v, rfl, hmode⟩ := h
  refine ⟨a ++ u, v ++ b, by simp, ?_⟩
  rw [Nesting.after_inert ha]
  exact hmode

theorem exists_last_char {k : TokenKind} {w rest : Text} (h : Scanned rest k w) (hk : k = .space ∨ k = .parenClose)
    (hw : w ≠ []) : ∃ init x, w = init ++ [x] ∧ (∀ c ∈ init, isInert c = true) ∧ (isBlank x = true ∨ x = ')') := by
  rcases hk with rfl | rfl
  · obtain ⟨init, x, rfl⟩ := (List.eq_nil_or_concat w).resolve_left hw
    rw [List.concat_eq_append] at *
    have hblank := h.isBlank
    refine ⟨init, x, rfl, fun c hc => ?_, .inl (hblank x (by simp))⟩
    exact isInert_of_isBlank (hblank c (List.mem_append_left _ hc))
  · exact ⟨[], ')', h.parenClose_eq, by simp, .inr rfl⟩

theorem ReadFrom.exists_commentAt {body : Text} {name : Token} {ts : List Token} {c : Command}
    (h : ReadFrom body name ts c) (ho : c.opensComment = true) :
    ∃ x, CommentAt body x ∧ (isBlank x = true ∨ x = ')') := by
  rw [Command.opensComment_eq] at ho
  obtain ⟨front, t, later, hts, ht, hc⟩ :=
    (h.bindings.commentBehind h.reads ho).resolve_left (not_comment_of_delimited h.delimited)
  have hsplit : ofText body = (name :: front) ++ t :: later := by
    rw [h.tokens, hts]; rfl
  obtain ⟨p, hlater⟩ := exists_place hsplit
  rw [hlater] at hc
  obtain ⟨b, hb⟩ := commentStart_of_joinTokens hc
  obtain ⟨init, x, hw, hinit, hx⟩ := exists_last_char (scanned_of_kindAt p.kindAt_eq) (ht.imp_left isSpace_iff.mp)
    (List.cons_ne_nil _ _)
  have hplace : CommentAt (body.dropWhile isBlank) x := by
    refine ⟨p.before ++ init, b, ?_, ?_⟩
    · refine p.text_eq.trans ?_
      rw [hw, ← hb]
      simp
    · have hhead : init.head?.or (some x) = some p.char := by
        rw [← List.head?_singleton, ← List.head?_append, ← hw, List.head?_cons]
      rw [Nesting.mode_after_append (by rw [hhead]; exact p.outside 0), Nesting.start,
        (plain_of_inert hinit _ 0 0).2]
  refine ⟨x, ?_, hx⟩
  have hblank : ∀ c ∈ body.takeWhile isBlank, isInert c = true := fun c hc =>
    isInert_of_isBlank (List.mem_takeWhile_imp hc)
  have := hplace.append hblank []
  rwa [List.append_nil, List.takeWhile_append_dropWhile] at this

theorem CommentAt.not_blank {t : Text} (h : NoComment t) : ¬CommentAt t ' ' := by
  rintro ⟨a, b, he, hmode⟩
  exact h 0 a b he hmode

/-! ## Commands -/

/-- The canonical text of a command has a comment just if the tree opens one, and then the text that was read has a
slash and a star behind a tab or a closing parenthesis. -/
theorem Command.takeComment_text {text : Text} {c : Command} (h : Command.parse text = .ok c) :
    (takeComment c.text = (c.text, none) ↔ c.opensComment = false) ∧
      (c.opensComment = true → ∃ x, CommentAt text x ∧ (x = '\t' ∨ x = ')')) := by
  refine ⟨takeComment_text_iff h, fun ho => ?_⟩
  obtain ⟨rest, body, name, ts, m, hl, hb, hm, -, hbs⟩ := exists_readFrom h
  rw [opensComment_eq, hbs, ← opensComment_eq] at ho
  obtain ⟨x, hx, hchar⟩ := hm.exists_commentAt ho
  have hbody : (takeComment rest).1 = body := congrArg Prod.fst hb
  refine ⟨x, ?_, hchar.imp_left fun hblank => ?_⟩
  · obtain ⟨lead, hlead, hinert⟩ := exists_takeLabel text
    obtain ⟨tail, htail⟩ := takeComment_prefix rest
    rw [hl, ← htail, hbody, ← List.append_assoc] at hlead
    rw [← hlead]
    exact hx.append hinert tail
  · rw [isBlank, Bool.or_eq_true, beq_iff_eq, beq_iff_eq] at hblank
    refine hblank.resolve_left fun he => ?_
    rw [he, ← hbody] at hx
    exact CommentAt.not_blank (noComment_takeComment rest) hx

theorem Command.takeComment_text_literal : ∃ c, Command.parse "CMD\tA(X '/* Y')".toList = .ok c ∧
    takeComment c.text = (c.text, none) := by
  have hparse : Command.parse "CMD\tA(X '/* Y')".toList = .ok ⟨"CMD".toList, [⟨"A".toList, .expression
      [⟨.keyword, "X".toList, 6⟩, ⟨.space, [' '], 7⟩, ⟨.string, "'/* Y'".toList, 8⟩] false⟩], none, none⟩ := by
    with_unfolding_all rfl
  obtain ⟨hnone, -⟩ := Command.takeComment_text hparse
  exact ⟨_, hparse, hnone.mpr (by decide)⟩

/-- The blank that the canonical text puts between the two items of a group starts a comment. -/
theorem Command.takeComment_text_group : ∃ c, Command.parse "CMD A((X)/*Y)".toList = .ok c ∧
    c.text = "CMD A((X) /*Y)".toList ∧ takeComment c.text = ("CMD A((X)".toList, some "/*Y)".toList) := by
  refine ⟨⟨"CMD".toList, [⟨"A".toList, .group [.expression [⟨.keyword, "X".toList, 7⟩] true,
    .expression [⟨.operator, "/".toList, 9⟩, ⟨.symbolic, "*Y".toList, 10⟩] false]⟩], none, none⟩, ?_, ?_, ?_⟩
  · with_unfolding_all rfl
  · with_unfolding_all rfl
  · with_unfolding_all rfl

end ControlLanguage
