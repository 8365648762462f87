import ControlLanguage.Proofs.Source
import ControlLanguage.Proofs.Spelling.Command
import ControlLanguage.Proofs.Token.Scan

/-!
# Comments in canonical texts

The canonical text of a command puts single blanks where tabs and runs of
blanks were, and between the items of a group. Where a slash and a star come
next, a comment starts that was none before. `Command.opensComment` finds the
places in the tree, and the canonical text has a comment only if there are some.
-/

namespace ControlLanguage

open Token

/-! ## Tokens -/

section
variable {k : TokenKind} {t : Token} {ts : List Token} {a u w rest : Text}

theorem Token.Scanned.blank_inside (h : Scanned rest k w) (hk : k ≠ .space) (hw : w = a ++ ' ' :: u) (d : Int) :
    (Nesting.after (some ' ') ⟨.outside, d⟩ a).mode ≠ .outside := by
  have hmem : ' ' ∈ w := by rw [hw]; simp
  rw [Nesting.mode_after]
  cases h with
  | space => exact absurd rfl hk
  | parenOpen => simp at hmem
  | parenClose => simp at hmem
  | ordinary _ _ _ hall => exact absurd (hall ' ' hmem) (by decide)
  | quoting _ hall =>
    intro hmode
    subst hw
    have hin := List.all_eq_true.mp hall ⟨0 + a.length, ' ', _, _⟩ (by
      rw [marksBefore_append]
      exact List.mem_append_right _ (List.mem_cons_self ..))
    have hfalse := (inWord_eq_false_iff (Nesting.start.after (some ' ') a) (0 + a.length) ' '
      (u.head?.or rest.head?)).mpr ⟨hmode, rfl⟩
    exact Bool.false_ne_true (hfalse.symm.trans hin)

theorem Token.Stands.scanned (h : t.Stands rest) : Scanned rest t.kind t.text := by
  obtain ⟨c, cs, ht, hk, -⟩ := h
  rw [ht]
  exact scanned_of_kindAt hk

theorem noComment_token_iff (h : t.Stands rest) (hs : t.isSpace = false) :
    NoComment (t.text ++ rest) ↔ NoComment rest := by
  have hk : t.kind ≠ .space := by
    rw [Ne, ← isSpace_iff, hs]; exact Bool.false_ne_true
  exact noComment_append_iff (fun d _ _ hw => h.scanned.blank_inside hk hw d) fun hr d => h.scanned.mode_after hr d

def commentBehindSpace : List Token → Bool
  | [] => false
  | t :: ts => t.isSpace && commentStart.isPrefixOf (joinTokens ts) || commentBehindSpace ts

theorem commentStart_isPrefixOf_append (hr : startsDelimited rest = true) (w : Text) :
    commentStart.isPrefixOf (w ++ rest) = commentStart.isPrefixOf w := by
  have hne : ∀ c cs, isDelimiter c = false → (c :: cs).isPrefixOf rest = false := by
    intro c cs hc
    rw [← Bool.not_eq_true, List.isPrefixOf_iff_prefix]
    rintro ⟨u, rfl⟩
    rw [startsDelimited, List.cons_append, List.head?_cons, Option.all_some, hc] at hr
    cases hr
  rcases w with _ | ⟨x, _ | ⟨y, w⟩⟩
  · rw [List.nil_append]
    exact hne '/' ['*'] (by decide)
  · have hstar := hne '*' [] (by decide)
    simp only [commentStart, String.reduceToList, List.singleton_append, List.isPrefixOf_cons_cons, hstar]
    rfl
  · simp [commentStart, List.isPrefixOf]

theorem noComment_joinTokens_iff (h : Reads ts rest) (hr : startsDelimited rest = true) :
    NoComment (joinTokens ts ++ rest) ↔ commentBehindSpace ts = false ∧ NoComment rest := by
  induction ts with
  | nil => simp [joinTokens, commentBehindSpace]
  | cons t ts ih =>
    have hts := ih h.2
    rw [joinTokens_cons, List.append_assoc, commentBehindSpace, Bool.or_eq_false_iff]
    by_cases hs : t.isSpace = true
    · rw [((stands_space_iff (isSpace_iff.mp hs)).mp h.1).1, List.singleton_append, noComment_blank_iff, hts,
        commentStart_isPrefixOf_append hr, hs, Bool.true_and, and_assoc]
    · rw [Bool.not_eq_true] at hs
      rw [noComment_token_iff h.1 hs, hts, hs, Bool.false_and]
      simp

theorem noComment_ordinary_iff (h : ∀ c ∈ w, isOrdinary c = true) (t : Text) :
    NoComment (w ++ t) ↔ NoComment t := by
  apply noComment_append_iff
  · intro d a u hw
    exact absurd (h ' ' (by rw [hw]; simp)) (by decide)
  · intro _ d
    rw [(marksBefore_ordinary (List.all_eq_true.mpr h) _ ⟨.outside, d⟩ rfl 0).2]

theorem noComment_paren_iff {c : Char} (hc : c = '(' ∨ c = ')') (t : Text) : NoComment (c :: t) ↔ NoComment t := by
  apply noComment_append_iff (w := [c])
  · intro d a u hw
    have hmem : ' ' ∈ [c] := by rw [hw]; simp
    rcases hc with rfl | rfl <;> simp at hmem
  · intro _ d
    rcases hc with rfl | rfl <;> rfl

end

/-! ## Trees -/

mutual

/-- Whether the text of a value has a comment: the items of a group have a blank in front of them. -/
def Value.opensComment : Value → Bool
  | .scalar _ => false
  | .group items => opensCommentInValues items || items.tail.any (commentStart.isPrefixOf ·.text)
  | .expression tokens _ => commentBehindSpace tokens
  | .nested call => opensCommentInCall call

def opensCommentInValues : List Value → Bool
  | [] => false
  | v :: vs => v.opensComment || opensCommentInValues vs

def opensCommentInCall : Call Value → Bool
  | ⟨_, bindings, _, _⟩ => opensCommentInBindings bindings

def opensCommentInBindings : List (Binding Value) → Bool
  | [] => false
  | ⟨name, value⟩ :: bs =>
    commentStart.isPrefixOf (bindingText name value.text) || value.opensComment || opensCommentInBindings bs

end

/-- Whether the canonical text of a command has a comment. -/
def Command.opensComment (c : Command) : Bool := opensCommentInCall c

/-- A text in which comments start, in front of a delimiter, just if `b` holds. -/
def OpensIf (b : Bool) (w : Text) : Prop :=
  ∀ rest, startsDelimited rest = true → rest ≠ [] → (NoComment (w ++ rest) ↔ b = false ∧ NoComment rest)

section
variable {t p q : Token} {ts inner : List Token} {v : Value} {vs : List Value} {rest : Text}

theorem opensIf_joinTokens (h : Reads ts rest) (hr : rest ≠ [])
    (hl : ∀ t, ts.getLast? = some t → t.isSpace = false) :
    OpensIf (commentBehindSpace ts) (joinTokens ts) := by
  intro rest' hd _
  exact noComment_joinTokens_iff (h.congr (replaces_of_delimited hr hd) hl) hd

theorem noComment_wrapped_iff (h : Reads inner (')' :: rest)) (w : Text) :
    NoComment ('(' :: joinTokens inner ++ [')'] ++ w) ↔ commentBehindSpace inner = false ∧ NoComment w := by
  have hreads : Reads inner (')' :: w) := h.congr_head rfl
  rw [List.append_assoc, List.cons_append, noComment_paren_iff (.inl rfl), List.singleton_append,
    noComment_joinTokens_iff hreads rfl, noComment_paren_iff (.inr rfl)]

theorem startsDelimited_flatMap {α : Type} (f : α → Text) (l : List α) (hr : startsDelimited rest = true) :
    startsDelimited (l.flatMap (fun x => ' ' :: f x) ++ rest) = true := by
  cases l with
  | nil => exact hr
  | cons => rfl

/-! ## Groups -/

namespace Value

theorem opensComment_ofRun (ts : List Token) : (ofRun ts).opensComment = commentBehindSpace ts := by
  match ts with
  | [] => rfl
  | [t] =>
    have ht : commentBehindSpace [t] = false := by
      rw [commentBehindSpace, commentBehindSpace, Bool.or_false, show joinTokens [] = [] from rfl]
      exact Bool.and_false _
    rw [ofRun, ht]
    split
    · rfl
    · exact ht
  | _ :: _ :: _ => rfl

theorem opensCommentInValues_eq_any (vs : List Value) : opensCommentInValues vs = vs.any opensComment := by
  induction vs with
  | nil => rfl
  | cons v vs ih => rw [opensCommentInValues, ih, List.any_cons]

theorem opensComment_ofGroups_cons (v : Value) (vs : List Value) : (ofGroups (v :: vs)).opensComment =
    (v.opensComment || vs.any fun v => commentStart.isPrefixOf v.text || v.opensComment) := by
  cases vs with
  | nil => exact (Bool.or_false _).symm
  | cons w ws =>
    have hgroup : ofGroups (v :: w :: ws) = .group (v :: w :: ws) := rfl
    rw [hgroup, opensComment, opensCommentInValues_eq_any, List.tail_cons, List.any_cons, Bool.or_assoc,
      Bool.or_comm ((w :: ws).any opensComment), Bool.eq_iff_iff]
    simp only [Bool.or_eq_true, List.any_eq_true, ← exists_or, ← and_or_left]

theorem opensIf_flatMap (h : ∀ v ∈ vs, OpensIf v.opensComment v.text) :
    OpensIf (vs.any fun v => commentStart.isPrefixOf v.text || v.opensComment)
      (vs.flatMap fun v => ' ' :: v.text) := by
  intro rest hd hr
  induction vs with
  | nil => simp
  | cons v vs ih =>
    obtain ⟨hv, hvs⟩ := List.forall_mem_cons.mp h
    have hnext := startsDelimited_flatMap text vs hd
    have hnil : vs.flatMap (fun v => ' ' :: v.text) ++ rest ≠ [] := by simp [hr]
    rw [List.flatMap_cons, List.append_assoc, List.cons_append, noComment_blank_iff,
      commentStart_isPrefixOf_append hnext, hv _ hnext hnil, ih hvs, List.any_cons, Bool.or_eq_false_iff,
      Bool.or_eq_false_iff, and_assoc, and_assoc]

theorem opensIf_ofGroups (h : ∀ v ∈ vs, OpensIf v.opensComment v.text) :
    OpensIf (ofGroups vs).opensComment (ofGroups vs).text := by
  cases vs with
  | nil => intro rest _ _; simp [ofGroups, opensComment, text]
  | cons v vs =>
    obtain ⟨hv, hvs⟩ := List.forall_mem_cons.mp h
    intro rest hd hr
    have hnext := startsDelimited_flatMap text vs hd
    have hnil : vs.flatMap (fun v => ' ' :: v.text) ++ rest ≠ [] := by simp [hr]
    rw [text_ofGroups, List.map_cons, unwords_cons, List.flatMap_map, List.append_assoc, hv _ hnext hnil,
      opensIf_flatMap hvs rest hd hr, opensComment_ofGroups_cons, Bool.or_eq_false_iff, and_assoc]

theorem GroupsOf.opensIf (h : GroupsOf ts vs) (hr : Reads ts (')' :: rest)) :
    ∀ v ∈ vs, OpensIf v.opensComment v.text := by
  induction h with
  | nil => simp
  | space _ _ ih => exact ih hr.2
  | span _ _ hq _ ih =>
    obtain ⟨hspan, hclose, hrest⟩ := reads_append.mp hr
    rw [joinTokens_cons, hclose.parenClose hq] at hspan
    exact List.forall_mem_cons.mpr ⟨fun w _ _ => noComment_wrapped_iff hspan.2 w, ih hrest⟩
  | @run t run ts vs _ _ _ _ ih =>
    obtain ⟨hrun, hrest⟩ := reads_append.mp hr
    refine List.forall_mem_cons.mpr ⟨?_, ih hrest⟩
    obtain ⟨sp, hsplit, -⟩ := exists_dropTrailingSpaces (t :: run)
    rw [hsplit] at hrun
    rw [opensComment_ofRun, text_ofRun]
    exact opensIf_joinTokens (reads_append.mp hrun).1 (by simp) fun _ => getLast?_dropTrailingSpaces

/-! ## Bindings -/

theorem noComment_bindingText_iff {b : Bool} {name w : Text} (hn : Word.isName name = true) (h : OpensIf b w) :
    NoComment (bindingText name w ++ rest) ↔ b = false ∧ NoComment rest := by
  have hordinary := List.all_eq_true.mp (Word.isOrdinary_of_isCommand (Word.isCommand_of_isName hn))
  rw [bindingText, Word.not_isPlaceholder_of_isName hn, if_neg Bool.false_ne_true, List.append_assoc,
    List.append_assoc,
    noComment_ordinary_iff hordinary, List.cons_append, noComment_paren_iff (.inl rfl), List.singleton_append,
    h _ rfl (by simp), noComment_paren_iff (.inr rfl)]

section
variable {seen : Bool} {n : Nat} {bs : List (Binding Value)} {rest' : Text}

theorem noComment_cons_iff {name : Text} (hd : startsDelimited rest' = true)
    (hb : NoComment (bindingText name v.text ++ (bs.flatMap (fun b => ' ' :: b.text) ++ rest')) ↔
      v.opensComment = false ∧ NoComment (bs.flatMap (fun b => ' ' :: b.text) ++ rest'))
    (ih : NoComment (bs.flatMap (fun b => ' ' :: b.text) ++ rest') ↔
      opensCommentInBindings bs = false ∧ NoComment rest') :
    NoComment ((⟨name, v⟩ :: bs).flatMap (fun b => ' ' :: b.text) ++ rest') ↔
      opensCommentInBindings (⟨name, v⟩ :: bs) = false ∧ NoComment rest' := by
  have hnext := startsDelimited_flatMap Binding.text bs hd
  rw [List.flatMap_cons, List.append_assoc, List.cons_append, noComment_blank_iff, Binding.text,
    commentStart_isPrefixOf_append hnext, hb, ih, opensCommentInBindings, Bool.or_eq_false_iff,
    Bool.or_eq_false_iff, and_assoc, and_assoc]

theorem noComment_positional_iff {run : List Token} (hr : Reads run rest) (hrep : Replaces rest' rest)
    (hd : startsDelimited rest' = true) (hl : ∀ t, run.getLast? = some t → t.isSpace = false) :
    NoComment ((ofPositional run).text ++ rest') ↔ (ofPositional run).opensComment = false ∧ NoComment rest' := by
  rcases ofPositional_cases run with ⟨p, inner, q, rfl, -, -, hq, hv⟩ | hv
  · obtain ⟨hspan, hclose, -⟩ := reads_append.mp hr
    rw [joinTokens_cons, hclose.parenClose hq] at hspan
    rw [hv]
    exact noComment_wrapped_iff hspan.2 rest'
  · rw [hv, text_ofRun, opensComment_ofRun]
    exact noComment_joinTokens_iff (hr.congr hrep hl) hd

theorem replaces_flatMap (hended : Ended ts) (hr : Reads ts rest) (hb : BindingsOf seen n ts bs)
    (hrep : Replaces rest' rest) (hd : startsDelimited rest' = true) :
    Replaces (bs.flatMap (fun b => ' ' :: b.text) ++ rest') (joinTokens ts ++ rest) := by
  rcases hended with rfl | ⟨u, us, rfl, hu⟩
  · rw [hb.nil_eq]; exact hrep
  · apply replaces_of_delimited
    · rw [joinTokens_cons, ((stands_space_iff (isSpace_iff.mp hu)).mp hr.1).1]
      exact List.cons_ne_nil _ _
    · exact startsDelimited_flatMap Binding.text bs hd

theorem BindingsOf.noComment_iff (h : BindingsOf seen n ts bs) (hr : Reads ts rest) (hrep : Replaces rest' rest)
    (hd : startsDelimited rest' = true) :
    NoComment (bs.flatMap (fun b => ' ' :: b.text) ++ rest') ↔
    opensCommentInBindings bs = false ∧ NoComment rest' := by
  induction h generalizing rest rest' with
  | nil => simp [opensCommentInBindings]
  | space _ _ ih => exact ih hr.2 hrep hd
  | @groups seen n t p inner q ts vs bs ht hp hb hq hn hv _ ih =>
    obtain ⟨hri, hrq, hrr⟩ := reads_append.mp hr.2.2
    rw [joinTokens_cons, hrq.parenClose hq] at hri
    have hname := Word.isName_upper (hr.1.isName ht)
    exact noComment_cons_iff hd (noComment_bindingText_iff hname (opensIf_ofGroups (hv.opensIf hri)))
      (ih hrr hrep hd)
  | @call seen n t p inner q ts name us cs bs ht hp hb hq hn _ _ ihc ih =>
    obtain ⟨hri, hrq, hrr⟩ := reads_append.mp hr.2.2
    rw [joinTokens_cons, hrq.parenClose hq] at hri
    obtain ⟨sp, u, hsplit, -, rfl, -, hcommand, -⟩ := nestedCall?_split hn
    rw [hsplit] at hri
    have hus : Reads us (')' :: (joinTokens ts ++ rest)) := (reads_append.mp hri).2.2
    have hcall : OpensIf (nested { name := u.text.upper, bindings := cs }).opensComment
        (nested { name := u.text.upper, bindings := cs }).text := by
      intro w hw _
      have hordinary := List.all_eq_true.mp (Word.isOrdinary_of_isCommand (Word.isCommand_upper hcommand).1)
      rw [text, callText, textsOfBindings_eq_map, unwords_cons, List.flatMap_map, List.append_assoc,
        noComment_ordinary_iff hordinary, ihc hus (replaces_of_delimited (by simp) hw) hw, opensComment,
        opensCommentInCall]
    have hname := Word.isName_upper (hr.1.isName ht)
    exact noComment_cons_iff hd (noComment_bindingText_iff hname hcall) (ih hrr hrep hd)
  | @positional n t run ts bs hs harg hrun hbs ih =>
    obtain ⟨hr1, hr2⟩ := reads_append.mp hr
    have hrun' := replaces_flatMap hrun.rest_of_stopsAtSpace hr2 hbs hrep hd
    have hnext := startsDelimited_flatMap Binding.text bs hd
    refine noComment_cons_iff hd ?_ (ih hr2 hrep hd)
    rw [bindingText, if_pos (isPlaceholder_placeholder _)]
    exact noComment_positional_iff hr1 hrun' hnext (RunOf.getLast?_of_stopsAtSpace hrun)

/-! ## The end of a text -/

theorem text_ofPositional {run : List Token} (hr : Reads run rest) : (ofPositional run).text = joinTokens run := by
  rcases ofPositional_cases run with ⟨p, inner, q, rfl, hp, -, hq, hv⟩ | hv
  · obtain ⟨hspan, hclose, -⟩ := reads_append.mp hr
    rw [hv, text, if_pos rfl, joinTokens_append, joinTokens_cons, joinTokens_cons, hspan.1.parenOpen hp,
      hclose.parenClose hq]
    rfl
  · rw [hv, text_ofRun]

theorem BindingsOf.isSpace_of_nil (h : BindingsOf seen n ts []) : ∀ t ∈ ts, t.isSpace = true := by
  generalize hb : ([] : List (Binding Value)) = bs at h
  induction h with
  | nil => simp
  | space hs _ ih => exact List.forall_mem_cons.mpr ⟨hs, ih hb⟩
  | groups => cases hb
  | call => cases hb
  | positional => cases hb

theorem BindingsOf.eq_nil_of_closed (h : BindingsOf seen n ts []) (hr : Reads ts [])
    (hl : ∀ x, (joinTokens ts).getLast? = some x → isSpace x = false) : ts = [] := by
  rcases List.eq_nil_or_concat ts with ht | ⟨init, t, rfl⟩
  · exact ht
  · rw [List.concat_eq_append] at *
    have hspace := h.isSpace_of_nil t (by simp)
    have htext := ((stands_space_iff (isSpace_iff.mp hspace)).mp (reads_append.mp hr).2.1).1
    have := hl ' ' (by rw [joinTokens_append, joinTokens_cons, htext]; simp [joinTokens])
    exact absurd this (by decide)

theorem not_isSpace_of_suffix {us : List Token} (hs : us <:+ ts)
    (hl : ∀ x, (joinTokens ts).getLast? = some x → isSpace x = false) :
    ∀ x, (joinTokens us).getLast? = some x → isSpace x = false := by
  obtain ⟨front, rfl⟩ := hs
  intro x hx
  exact hl x (by rw [joinTokens_append, List.getLast?_append, hx]; rfl)

theorem closes_of_getLast? {w : Text} (hn : w ≠ []) (hl : ∀ x, w.getLast? = some x → isSpace x = false) :
    Closes w := by
  obtain ⟨cs, x, rfl⟩ := (List.eq_nil_or_concat w).resolve_left hn
  rw [List.concat_eq_append] at *
  exact ⟨cs, x, rfl, hl x List.getLast?_concat⟩

theorem closes_flatMap_cons {b : Binding Value} (hb : bs = [] → Closes b.text)
    (hbs : bs ≠ [] → Closes (bs.flatMap fun b => ' ' :: b.text)) :
    Closes ((b :: bs).flatMap fun b => ' ' :: b.text) := by
  rw [List.flatMap_cons]
  by_cases hn : bs = []
  · have hlast : Closes (' ' :: b.text) := (hb hn).append [' ']
    rwa [hn, List.flatMap_nil, List.append_nil]
  · exact (hbs hn).append _

theorem closes_bindingText {name : Text} (hn : Word.isName name = true) (w : Text) :
    Closes (bindingText name w) := by
  rw [bindingText, Word.not_isPlaceholder_of_isName hn, if_neg Bool.false_ne_true]
  exact ⟨name ++ '(' :: w, ')', rfl, by decide⟩

theorem BindingsOf.closes (h : BindingsOf seen n ts bs) (hr : Reads ts [])
    (hl : ∀ x, (joinTokens ts).getLast? = some x → isSpace x = false) (hb : bs ≠ []) :
    Closes (bs.flatMap fun b => ' ' :: b.text) := by
  induction h with
  | nil => exact absurd rfl hb
  | space _ _ ih => exact ih hr.2 (not_isSpace_of_suffix (List.suffix_cons ..) hl) hb
  | @groups seen n t p inner q ts _ _ ht _ _ _ _ _ _ ih =>
    have hsuffix : ts <:+ t :: p :: (inner ++ q :: ts) := ⟨t :: p :: (inner ++ [q]), by simp⟩
    exact closes_flatMap_cons (fun _ => closes_bindingText (Word.isName_upper (hr.1.isName ht)) _)
      (ih (reads_append.mp hr.2.2).2.2 (not_isSpace_of_suffix hsuffix hl))
  | @call seen n t p inner q ts _ _ _ _ ht _ _ _ _ _ _ _ ih =>
    have hsuffix : ts <:+ t :: p :: (inner ++ q :: ts) := ⟨t :: p :: (inner ++ [q]), by simp⟩
    exact closes_flatMap_cons (fun _ => closes_bindingText (Word.isName_upper (hr.1.isName ht)) _)
      (ih (reads_append.mp hr.2.2).2.2 (not_isSpace_of_suffix hsuffix hl))
  | @positional n t run ts bs _ _ _ hbs ih =>
    obtain ⟨hr1, hr2⟩ := reads_append.mp hr
    have hl' := not_isSpace_of_suffix (List.suffix_append ..) hl
    refine closes_flatMap_cons (fun hn => ?_) (ih hr2 hl')
    subst hn
    obtain rfl := hbs.eq_nil_of_closed hr2 hl'
    rw [List.append_nil] at hl
    rw [Binding.text, bindingText, if_pos (isPlaceholder_placeholder _), text_ofPositional hr1]
    refine closes_of_getLast? ?_ hl
    rw [joinTokens_cons]
    exact List.append_ne_nil_of_left_ne_nil hr1.1.ne_nil _

end

end Value

end

/-! ## Commands -/

theorem Command.opensComment_eq (c : Command) : c.opensComment = opensCommentInBindings c.bindings := by
  cases c; rfl

section
variable {body : Text} {name : Token} {ts : List Token} {c : Command}

theorem ReadFrom.noComment_iff (h : ReadFrom body name ts c) :
    NoComment (c.name ++ c.bindings.flatMap fun b => ' ' :: b.text) ↔ c.opensComment = false := by
  have hordinary := List.all_eq_true.mp (Word.isOrdinary_of_isCommand h.upper_name.1)
  have hbs := h.bindings.noComment_iff h.reads (.inl rfl) rfl
  rw [List.append_nil] at hbs
  rw [noComment_ordinary_iff hordinary, hbs, Command.opensComment_eq, and_iff_left noComment_nil]

theorem ReadFrom.closes (h : ReadFrom body name ts c) (hl : ∀ x, body.getLast? = some x → isSpace x = false) :
    Closes (c.name ++ c.bindings.flatMap fun b => ' ' :: b.text) := by
  by_cases hb : c.bindings = []
  · rw [hb, List.flatMap_nil, List.append_nil, h.name_eq]
    exact (tight_upper h.isCommand).closes
  · obtain ⟨pos, rest, rfl, front, rfl⟩ := ofText_tail h.tokens
    have hrest : ∀ x, rest.getLast? = some x → isSpace x = false := by
      intro x hx
      exact hl x (by rw [List.getLast?_append, hx]; rfl)
    have hblank : ∀ x, rest.getLast? = some x → isBlank x = false := by
      intro x hx
      rw [← Bool.not_eq_true]
      intro hx'
      exact Bool.false_ne_true ((hrest x hx).symm.trans (isSpace_of_isBlank hx'))
    refine (h.bindings.closes h.reads (fun x hx => ?_) hb).append _
    rw [getLast?_joinTokens pos hblank] at hx
    exact hrest x hx

end

theorem noComment_label_iff {label name : Text} (hl : Word.isName label = true) (hn : Word.isCommand name = true)
    (t : Text) :
    NoComment (label ++ ": ".toList ++ (name ++ t)) ↔ NoComment (name ++ t) := by
  have hordinary := List.all_eq_true.mp (Word.isOrdinary_of_isCommand (Word.isCommand_of_isName hl))
  have hcolon : ∀ u, NoComment (':' :: u) ↔ NoComment u :=
    noComment_ordinary_iff (List.forall_mem_singleton.mpr rfl)
  rw [List.append_assoc, noComment_ordinary_iff hordinary, show ": ".toList = [':', ' '] from rfl, List.cons_append,
    hcolon,
    List.singleton_append, noComment_blank_iff, (not_comment_of_isCommand hn t).1]
  exact and_iff_right rfl

theorem takeComment_text_iff {text : Text} {c : Command} (h : Command.parse text = .ok c) :
    takeComment c.text = (c.text, none) ↔ c.opensComment = false := by
  obtain ⟨rest, body, name, ts, m, hl, hb, hm, hname, hbs⟩ := exists_readFrom h
  have hbody : ∀ x, body.getLast? = some x → isSpace x = false := by
    intro x hx
    obtain ⟨s, -, hs⟩ := takeComment_body rest
    rw [hb] at hs
    obtain rfl : body = Text.trimRight s := hs
    rcases closes_trimRight s with he | ⟨cs, d, he, hd⟩
    · rw [he] at hx; cases hx
    · rw [he, List.getLast?_concat] at hx
      cases hx; exact hd
  have hcloses := hm.closes hbody
  have hopens := hm.noComment_iff
  have hcommand := hm.upper_name.1
  rw [Command.opensComment_eq] at hopens ⊢
  rw [← hname, ← hbs] at hcloses hopens
  rw [← hname] at hcommand
  have hcbody : c.body = c.name ++ c.bindings.flatMap fun b => ' ' :: b.text := by
    rw [Call.body, unwords_cons, List.flatMap_map]
  rw [← hopens]
  cases hlabel : c.label with
  | none =>
    rw [Call.text, hlabel, Call.part?, Option.filter_none, hcbody]
    exact takeComment_eq_self_iff hcommand hcloses
  | some l =>
    rw [hlabel] at hl
    obtain ⟨hsimple, -⟩ := label_of_takeLabel (congrArg Prod.fst hl)
    have hlname : Word.isName l = true := by
      rw [Word.isSimpleName, Bool.and_eq_true] at hsimple
      exact hsimple.2
    have hlcommand := Word.isCommand_of_isName hlname
    have hpart : Call.part? (some l) = some l := by
      simp [Call.part?, Word.ne_nil_of_isCommand hlcommand]
    have htext : c.text = l ++ ": ".toList ++ c.body := by
      rw [Call.text, hlabel, hpart]
    have hlabelled := hcloses.append (l ++ ": ".toList)
    rw [htext, hcbody, ← noComment_label_iff hlname hcommand]
    rw [List.append_assoc] at hlabelled ⊢
    exact takeComment_eq_self_iff hlcommand hlabelled

end ControlLanguage
