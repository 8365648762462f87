import ControlLanguage.Command.Source
import ControlLanguage.Proofs.Nesting.SelfContained
import ControlLanguage.Proofs.Token.Ends
import ControlLanguage.Proofs.Token.Unbroken

/-!
# Labels and comments

A command text has a label only if it starts with a name and a colon, and a
comment only behind a blank outside literals. A text that is put together
from unbroken words, and in which no blank between them is followed by a
slash, has none.
-/

namespace ControlLanguage

open Token

/-! ## Labels -/

section
variable {t label : Text}

theorem trimLeft_blanks (n : Nat) (t : Text) : Text.trimLeft (Text.blanks n ++ t) = Text.trimLeft t := by
  rw [Text.trimLeft, Text.trimLeft, List.dropWhile_append_of_pos]
  intro c hc
  rw [List.eq_of_mem_replicate hc]; decide

theorem takeLabel_blanks (n : Nat) (t : Text) : takeLabel (Text.blanks n ++ t) = takeLabel t := by
  rw [takeLabel, trimLeft_blanks]; rfl

theorem trimLeft_append {w : Text} (hn : w ≠ []) (hs : ∀ c ∈ w, isSpace c = false) (rest : Text) :
    Text.trimLeft (w ++ rest) = w ++ rest := by
  obtain ⟨c, cs, rfl⟩ := List.exists_cons_of_ne_nil hn
  apply List.dropWhile_cons_of_neg
  rw [hs c (List.mem_cons_self ..)]
  exact Bool.false_ne_true

theorem takeLabel_of_not_mem {w rest : Text} (hn : w ≠ []) (hs : ∀ c ∈ w, isSpace c = false) (hc : ':' ∉ w)
    (hr : rest = [] ∨ ∃ r, rest = ' ' :: r) : takeLabel (w ++ rest) = (none, w ++ rest) := by
  have hdrop : ∀ r, (w ++ rest).dropWhile continuesName ≠ ':' :: r := by
    intro r h
    rw [List.dropWhile_append] at h
    split at h
    · rcases hr with rfl | ⟨r, rfl⟩
      · cases h
      · rw [List.dropWhile_cons_of_neg (by decide)] at h; cases h
    · next hne =>
      obtain ⟨d, ds, hd⟩ := List.exists_cons_of_ne_nil (mt List.isEmpty_iff.mpr hne)
      rw [hd] at h
      obtain ⟨rfl, -⟩ := List.cons.inj h
      exact hc ((List.dropWhile_suffix continuesName).subset (by rw [hd]; exact List.mem_cons_self ..))
  rw [takeLabel]
  -- the case with a colon is ruled out by `hdrop`
  simp only [trimLeft_append hn hs, drop_length_takeWhile]

theorem Word.isSimpleName_upper (h : Word.isSimpleName t = true) :
    Word.isSimpleName t.upper = true ∧ Text.upper t.upper = t.upper := by
  unfold Word.isSimpleName at h ⊢
  rw [Bool.and_eq_true, decide_eq_true_iff] at h
  obtain ⟨hlen, -, hupper⟩ := Text.upper_of_continuesName (Word.all_of_isName h.2)
  rw [Word.isName_upper h.2, hlen, decide_eq_true h.1]
  exact ⟨rfl, hupper⟩

theorem label_of_takeLabel (h : (takeLabel t).1 = some label) :
    Word.isSimpleName label = true ∧ label.upper = label := by
  rw [takeLabel] at h
  split at h
  · split at h
    · next hname =>
      obtain rfl := Option.some.inj h
      exact Word.isSimpleName_upper hname
    · cases h
  · cases h

theorem takeLabel_label (hn : Word.isSimpleName label = true) (n : Nat) {rest : Text}
    (hr : Text.trimLeft rest = rest) :
    takeLabel (label ++ ':' :: (Text.blanks n ++ rest)) = (some label.upper, rest) := by
  have hname : Word.isName label = true := by
    rw [Word.isSimpleName, Bool.and_eq_true] at hn
    exact hn.2
  have hall := Word.all_of_isName hname
  have hcommand := Word.isCommand_of_isName hname
  have htrim := trimLeft_append (Word.ne_nil_of_isCommand hcommand) (Word.not_isSpace_of_isCommand hcommand)
    (':' :: (Text.blanks n ++ rest))
  have htake : (label ++ ':' :: (Text.blanks n ++ rest)).takeWhile continuesName = label := by
    rw [List.takeWhile_append_of_pos (List.all_eq_true.mp hall), List.takeWhile_cons_of_neg (by decide),
      List.append_nil]
  have hblanks : Text.trimLeft (Text.blanks n ++ rest) = rest := by
    rw [trimLeft_blanks, hr]
  rw [takeLabel]
  simp only [htrim, htake, List.drop_left, hn, if_true, hblanks]

theorem exists_takeLabel (t : Text) : ∃ lead, lead ++ (takeLabel t).2 = t ∧ ∀ c ∈ lead, isInert c = true := by
  have hspace : ∀ s : Text, ∀ c ∈ s.takeWhile isSpace, isInert c = true := fun s c hc =>
    isInert_of_isSpace (List.mem_takeWhile_imp hc)
  have htrim : t.takeWhile isSpace ++ Text.trimLeft t = t := List.takeWhile_append_dropWhile
  rw [takeLabel]
  split
  · next rest hr =>
    split
    · have hname : (Text.trimLeft t).takeWhile continuesName ++ (Text.trimLeft t).dropWhile continuesName =
          Text.trimLeft t := List.takeWhile_append_dropWhile
      rw [← drop_length_takeWhile, hr] at hname
      refine ⟨t.takeWhile isSpace ++ ((Text.trimLeft t).takeWhile continuesName ++ ':' :: rest.takeWhile isSpace),
        ?_,
        fun c hc => ?_⟩
      · conv_rhs => rw [← htrim, ← hname, ← List.takeWhile_append_dropWhile (p := isSpace) (l := rest)]
        simp [Text.trimLeft]
      · rw [List.mem_append, List.mem_append, List.mem_cons] at hc
        rcases hc with hc | hc | rfl | hc
        · exact hspace t c hc
        · exact isInert_of_isOrdinary (isOrdinary_of_continuesName (List.mem_takeWhile_imp hc))
        · rfl
        · exact hspace rest c hc
    · exact ⟨_, htrim, hspace t⟩
  · exact ⟨_, htrim, hspace t⟩

theorem takeLabel_suffix (t : Text) : (takeLabel t).2 <:+ t := by
  obtain ⟨lead, h, -⟩ := exists_takeLabel t
  exact ⟨lead, h⟩

end

/-! ## Comments -/

theorem takeComment_none {t body : Text} (h : takeComment t = (body, none)) : body = Text.trimRight t := by
  rw [takeComment] at h
  split at h
  · cases h
  · split at h
    · cases h; rfl
    · cases h

theorem takeComment_body (t : Text) : ∃ s, s <+: t ∧ (takeComment t).1 = Text.trimRight s := by
  rw [takeComment]
  split
  · exact ⟨[], List.nil_prefix, rfl⟩
  · split
    · exact ⟨t, List.prefix_rfl, rfl⟩
    · exact ⟨_, List.take_prefix .., rfl⟩

theorem takeComment_prefix (t : Text) : (takeComment t).1 <+: t := by
  obtain ⟨s, hs, he⟩ := takeComment_body t
  obtain ⟨u, hu, -⟩ := Text.trimRight_prefix s
  rw [he]
  exact .trans ⟨u, hu.symm⟩ hs

/-- Every place where a comment could start lies in a literal. -/
def NoComment (t : Text) : Prop :=
  ∀ (d : Int) (a b : Text), t = a ++ ' ' :: (commentStart ++ b) →
    (Nesting.after (some ' ') ⟨.outside, d⟩ a).mode ≠ .outside

section
variable {c : Char} {t w : Text}

theorem noComment_nil : NoComment [] := by
  intro d a b h
  simp at h

theorem Nesting.step_delimiter (hc : isDelimiter c = true) (d : Int) (next : Option Char) :
    ∃ k, (Nesting.step ⟨.outside, d⟩ c next).2 = ⟨.outside, k⟩ := by
  rcases isDelimiter_iff.mp hc with rfl | rfl | rfl | rfl
  · exact ⟨d, rfl⟩
  · exact ⟨d, rfl⟩
  · exact ⟨d + 1, rfl⟩
  · exact ⟨d - 1, rfl⟩

/-- No comment starts in a text in which all blanks lie in literals. -/
theorem noComment_append_iff
    (hb : ∀ d a u, w = a ++ ' ' :: u → (Nesting.after (some ' ') ⟨.outside, d⟩ a).mode ≠ .outside)
    (hend : t ≠ [] → ∀ d, (Nesting.after t.head? ⟨.outside, d⟩ w).mode = .outside) :
    NoComment (w ++ t) ↔ NoComment t := by
  have hafter : ∀ d a u, t = a ++ ' ' :: u → (Nesting.after (some ' ') ⟨.outside, d⟩ (w ++ a)).mode =
      (Nesting.start.after (some ' ') a).mode := by
    intro d a u ht
    have hhead : t.head? = a.head?.or (some ' ') := by rw [ht, List.head?_append]; rfl
    have hmode := hend (by rw [ht]; simp) d
    rw [hhead] at hmode
    exact Nesting.mode_after_append hmode
  constructor
  · intro h d a b he
    have := h d (w ++ a) b (by rw [he, List.append_assoc])
    rwa [hafter d a _ he, ← Nesting.mode_after _ d] at this
  · intro h d a b he
    rcases List.append_eq_append_iff.mp he with ⟨u, rfl, hu⟩ | ⟨u, rfl, hu⟩
    · rw [hafter d u _ hu, ← Nesting.mode_after _ d]
      exact h d u b hu
    · cases u with
      | nil =>
        have hmode := hafter d [] _ hu.symm
        rw [List.append_nil, List.append_nil] at hmode
        rw [hmode]
        exact h 0 [] b hu.symm
      | cons x u =>
        obtain ⟨rfl, -⟩ := List.cons.inj hu
        exact hb d a u rfl

theorem noComment_blank_iff : NoComment (' ' :: t) ↔ commentStart.isPrefixOf t = false ∧ NoComment t := by
  rw [← Bool.not_eq_true, List.isPrefixOf_iff_prefix]
  constructor
  · intro h
    refine ⟨?_, fun d a b he => ?_⟩
    · rintro ⟨b, rfl⟩
      exact h 0 [] b rfl rfl
    · have := h d (' ' :: a) b (by rw [he]; rfl)
      exact this
  · rintro ⟨hp, h⟩ d a b he
    cases a with
    | nil => exact absurd ⟨b, (List.cons.inj he).2.symm⟩ hp
    | cons x a =>
      obtain ⟨rfl, rfl⟩ := List.cons.inj he
      exact h d a b rfl

theorem NoComment.delimiter (hc : isDelimiter c = true) (hb : c = ' ' → t.head? ≠ some '/') (h : NoComment t) :
    NoComment (c :: t) := by
  by_cases hblank : c = ' '
  · subst hblank
    refine noComment_blank_iff.mpr ⟨?_, h⟩
    rw [← Bool.not_eq_true, List.isPrefixOf_iff_prefix]
    rintro ⟨b, rfl⟩
    exact hb rfl rfl
  · refine (noComment_append_iff (w := [c]) (fun d a u ha => ?_) fun _ d => ?_).mpr h
    · cases a with
      | nil => exact absurd (List.cons.inj ha).1 hblank
      | cons => simp at ha
    · obtain ⟨k, hk⟩ := Nesting.step_delimiter hc d t.head?
      exact congrArg Nesting.mode hk

theorem NoComment.unbroken (hw : Unbroken w) (hq : t.head? ≠ some '\'') (h : NoComment t) : NoComment (w ++ t) := by
  refine (noComment_append_iff (fun d a u ha hmode => ?_) fun _ d => ?_).mpr h
  · subst ha
    have hmem := (hw.scan hq d 0).1 ⟨0 + a.length, ' ', _, _⟩ (by
      rw [marksBefore_append]
      exact List.mem_append_right _ (List.mem_cons_self ..))
    have hfalse := (inWord_eq_false_iff (Nesting.after (some ' ') ⟨.outside, d⟩ a) (0 + a.length) ' '
      (u.head?.or t.head?)).mpr ⟨hmode, rfl⟩
    exact Bool.false_ne_true (hfalse.symm.trans hmem)
  · rw [(hw.scan hq d 0).2]

theorem mem_marksFrom {m : Mark} {n : Nesting} {i : Nat} (h : m ∈ marksFrom n i t) : ∃ a x b,
    t = a ++ x :: b ∧ m.index = i + a.length ∧ m.role = ((n.after (some x) a).step x b.head?).1 := by
  induction t generalizing n i with
  | nil => cases h
  | cons c t ih =>
    rw [marksFrom_cons] at h
    rcases List.mem_cons.mp h with rfl | h
    · exact ⟨[], c, t, rfl, rfl, rfl⟩
    · obtain ⟨a, x, b, rfl, hi, hr⟩ := ih h
      refine ⟨c :: a, x, b, rfl, by rw [hi, List.length_cons]; omega, ?_⟩
      rw [hr, List.head?_append]; rfl

theorem exists_mem_marksFrom (n : Nesting) (i : Nat) (a : Text) (x : Char) (b : Text) :
    ∃ m ∈ marksFrom n i (a ++ x :: b), m.index = i + a.length ∧
    m.role = ((n.after (some x) a).step x b.head?).1 := by
  rw [marksFrom_append, List.head?_cons, marksFrom_cons]
  exact ⟨_, List.mem_append_right _ (List.mem_cons_self ..), rfl, rfl⟩

theorem findOutside?_commentStart_iff : findOutside? (' ' :: commentStart) t = none ↔ NoComment t := by
  rw [findOutside?, Option.map_eq_none_iff, List.find?_eq_none]
  constructor
  · intro h d a b he hmode
    obtain ⟨m, hm, hi, hr⟩ := exists_mem_marksFrom .start 0 a ' ' (commentStart ++ b)
    have hlit : m.role.inLiteral = false := by
      rw [Nesting.mode_after] at hmode
      rw [hr, Nesting.step, hmode]; rfl
    refine h m (by rwa [he, marks_eq]) ?_
    rw [hlit, hi, he, Nat.zero_add, List.drop_left, Bool.not_false, Bool.true_and, List.isPrefixOf_iff_prefix]
    exact ⟨b, rfl⟩
  · intro h m hm hstart
    obtain ⟨a, x, b, rfl, hi, hr⟩ := mem_marksFrom (by rwa [marks_eq] at hm)
    rw [Bool.and_eq_true, Bool.not_eq_true', List.isPrefixOf_iff_prefix, hi, Nat.zero_add, List.drop_left] at hstart
    obtain ⟨hlit, b', hb'⟩ := hstart
    obtain ⟨rfl, rfl⟩ := List.cons.inj hb'
    have hmode : (Nesting.start.after (some ' ') a).mode ≠ .outside := h 0 a b' rfl
    rw [hr, Nesting.inLiteral_of_inside hmode] at hlit
    cases hlit

theorem le_of_findOutside? {a b : Text} {i : Nat}
    (h : findOutside? (' ' :: commentStart) (a ++ ' ' :: (commentStart ++ b)) = some i)
    (hmode : (Nesting.start.after (some ' ') a).mode = .outside) : i ≤ a.length := by
  rw [findOutside?, Option.map_eq_some_iff] at h
  obtain ⟨m, hm, rfl⟩ := h
  obtain ⟨-, before, later, hms, hbefore⟩ := List.find?_eq_some_iff_append.mp hm
  obtain ⟨l, hl, hi, hr⟩ := exists_mem_marksFrom .start 0 a ' ' (commentStart ++ b)
  have hpairs := pairwise_index_marksFrom .start 0 (a ++ ' ' :: (commentStart ++ b))
  rw [← marks_eq, hms] at hl hpairs
  rw [Nat.zero_add] at hi
  rcases List.mem_append.mp hl with hl | hl
  · have hlit : l.role.inLiteral = false := by
      rw [hr, Nesting.step, hmode]; rfl
    have hplace : (' ' :: commentStart).isPrefixOf ((a ++ ' ' :: (commentStart ++ b)).drop l.index) = true := by
      rw [hi, List.drop_left, List.isPrefixOf_iff_prefix]
      exact ⟨b, rfl⟩
    have := hbefore l hl
    rw [hlit, hplace] at this
    cases this
  · rcases List.mem_cons.mp hl with rfl | hl
    · exact Nat.le_of_eq hi
    · have := List.rel_of_pairwise_cons (List.pairwise_append.mp hpairs).2.1 hl
      omega

theorem NoComment.left (h : NoComment (w ++ t)) : NoComment w := by
  intro d a b he
  exact h d a (b ++ t) (by rw [he]; simp)

theorem noComment_trimRight (h : NoComment t) : NoComment (Text.trimRight t) := by
  obtain ⟨s, hs, -⟩ := Text.trimRight_prefix t
  rw [hs] at h
  exact h.left

theorem noComment_takeComment (t : Text) : NoComment (takeComment t).1 := by
  rw [takeComment]
  split
  · exact noComment_nil
  · split
    · next hf => exact noComment_trimRight (findOutside?_commentStart_iff.mp hf)
    · next start hf =>
      refine noComment_trimRight fun d a b he hmode => ?_
      have ht : t = a ++ ' ' :: (commentStart ++ (b ++ t.drop start)) := by
        conv_lhs => rw [← List.take_append_drop start t, he]
        simp
      have hlen : a.length < start := by
        have := List.length_take_le start t
        rw [he, List.length_append, List.length_cons] at this
        omega
      rw [ht] at hf
      rw [Nesting.mode_after] at hmode
      have := le_of_findOutside? hf hmode
      omega

theorem not_comment_of_isCommand {name : Text} (h : Word.isCommand name = true) (t : Text) :
    commentStart.isPrefixOf (name ++ t) = false ∧ Text.trimLeft (name ++ t) = name ++ t := by
  refine ⟨?_, trimLeft_append (Word.ne_nil_of_isCommand h) (Word.not_isSpace_of_isCommand h) t⟩
  obtain ⟨c, cs, rfl⟩ := List.exists_cons_of_ne_nil (Word.ne_nil_of_isCommand h)
  rw [← Bool.not_eq_true, List.isPrefixOf_iff_prefix]
  rintro ⟨u, hu⟩
  exact Word.head_of_isCommand h (List.cons.inj hu).1.symm

theorem takeComment_eq_self_iff {name : Text} (h : Word.isCommand name = true) (hc : Closes (name ++ t)) :
    takeComment (name ++ t) = (name ++ t, none) ↔ NoComment (name ++ t) := by
  obtain ⟨hstart, htrim⟩ := not_comment_of_isCommand h t
  rw [takeComment, htrim, hstart, if_neg Bool.false_ne_true, ← findOutside?_commentStart_iff]
  split
  · next hf => simp [hf, trimRight_of_closes hc]
  · next hf => simp [hf]

end

end ControlLanguage
