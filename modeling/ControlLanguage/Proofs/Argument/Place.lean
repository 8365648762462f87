import ControlLanguage.Proofs.Source
import ControlLanguage.Proofs.Token.Depth

/-!
# The argument at one place of a text

A keyword is sought at every place outside of literals and parentheses, and
compared with the upper case of the text at the same offset. That is the
right offset if the text in front of the place is as long as its upper case;
then only a whole word with a parenthesis behind it can be the keyword.
-/

namespace ControlLanguage

open Token

/-! ## Offsets in the upper case -/

section
variable {s t : Text}

theorem Text.length_le_upper (t : Text) : t.length ≤ t.upper.length := by
  induction t with
  | nil => exact Nat.le_refl _
  | cons c t ih =>
    have := List.length_pos_iff.mpr (upperChar_ne_nil c)
    rw [upper_cons, List.length_append, List.length_cons]
    omega

def Text.Steady (t : Text) : Prop := t.upper.length = t.length

theorem Text.Steady.left (h : Steady (s ++ t)) : Steady s := by
  have hs := length_le_upper s
  have ht := length_le_upper t
  rw [Steady, upper_append, List.length_append, List.length_append] at h
  exact Nat.le_antisymm (by omega) hs

theorem Text.Steady.right (h : Steady (s ++ t)) : Steady t := by
  have hs := length_le_upper s
  have ht := length_le_upper t
  rw [Steady, upper_append, List.length_append, List.length_append] at h
  exact Nat.le_antisymm (by omega) ht

theorem Text.Steady.of_take {n : Nat} (h : Steady (t.take n)) (hp : s <+: t) (hn : s.length ≤ n) : Steady s := by
  obtain ⟨u, hu⟩ := List.prefix_take_iff.mpr ⟨hp, hn⟩
  rw [← hu] at h
  exact h.left

theorem Text.Steady.drop_upper (h : Steady s) (t : Text) : (upper (s ++ t)).drop s.length = upper t := by
  rw [upper_append, List.drop_left' h]

end

/-! ## One place -/

/-- The keywords that are sought: names in upper case. -/
structure IsKeyword (k : Text) : Prop where
  isName : Word.isName k = true
  upper_eq : k.upper = k

/-- A text behind which a name can start. -/
def BeforeName (a : Text) : Prop := ∀ x, a.getLast? = some x → continuesName x = false

section
variable {k a b w r : Text} {x : Char}

theorem isInert_of_isName (h : Word.isName w = true) : ∀ c ∈ w, isInert c = true := fun c hc =>
  isInert_of_isOrdinary (isOrdinary_of_continuesName (List.all_eq_true.mp (Word.all_of_isName h) c hc))

theorem beforeName_append (hn : w ≠ []) (hw : ∀ c ∈ w, isDelimiter c = true) : BeforeName (a ++ w) := by
  obtain ⟨v, y, rfl⟩ := (List.eq_nil_or_concat w).resolve_left hn
  intro x hx
  rw [List.concat_eq_append] at hx hw
  rw [← List.append_assoc, List.getLast?_concat] at hx
  obtain rfl := Option.some.inj hx
  exact continuesName_of_isDelimiter (hw y (by simp))

theorem IsKeyword.not_delimiter (h : IsKeyword k) (hx : x ∈ k) : isDelimiter x = false := by
  have := List.all_eq_true.mp (Word.all_of_isName h.isName) x hx
  exact not_isDelimiter_of_isOrdinary (isOrdinary_of_continuesName this)

theorem upperChar_of_isDelimiter (h : isDelimiter x = true) : upperChar x = [x] := by
  rcases isDelimiter_iff.mp h with rfl | rfl | rfl | rfl <;> decide

theorem argumentAt?_of_not_prefix (ha : Text.Steady a) (h : ¬k <+: b.upper) :
    argumentAt? (a ++ b) k a.length = none := by
  rw [argumentAt?, ha.drop_upper]
  apply if_neg
  rintro ⟨hp, -⟩
  exact h (List.isPrefixOf_iff_prefix.mp hp)

theorem argumentAt?_inside (hx : continuesName x = true) : argumentAt? (a ++ x :: b) k (a.length + 1) = none := by
  rw [argumentAt?]
  apply if_neg
  rintro ⟨-, hn | hn⟩
  · cases hn
  · rw [Nat.add_sub_cancel, List.getElem?_append_right (Nat.le_refl _), Nat.sub_self] at hn
    simp [hx] at hn

theorem getElem?_opening (hw : w.length = k.length) :
    (a ++ (w ++ r)).drop (a.length + k.length) = r ∧
      (a ++ (w ++ r))[a.length + k.length + (r.takeWhile isBlank).length]? = (r.dropWhile isBlank).head? := by
  have hdrop : (a ++ (w ++ r)).drop (a.length + k.length) = r := by
    rw [← List.drop_drop, List.drop_left, List.drop_left' hw]
  refine ⟨hdrop, ?_⟩
  rw [← List.getElem?_drop, hdrop, ← List.head?_drop, drop_length_takeWhile]

theorem argumentAt?_of_next (hw : w.length = k.length) (hr : (r.dropWhile isBlank).head? ≠ some '(') :
    argumentAt? (a ++ (w ++ r)) k a.length = none := by
  obtain ⟨hdrop, hopening⟩ := @getElem?_opening k a w r hw
  rw [argumentAt?]
  simp only [hdrop, hopening, if_neg hr, ite_self]

theorem argumentAt?_found (ha : Text.Steady a) (hs : BeforeName a) (hw : Text.Steady w) :
    argumentAt? (a ++ (w ++ '(' :: r)) w.upper a.length =
      some ((closingParen? (a ++ (w ++ '(' :: r)) (a ++ w).length).map fun close =>
        ((a ++ (w ++ '(' :: r)).take close).drop ((a ++ w).length + 1)) := by
  obtain ⟨hdrop, hopening⟩ := @getElem?_opening w.upper a w ('(' :: r) hw.symm
  have hbegin : w.upper.isPrefixOf (Text.upper (w ++ '(' :: r)) = true := by
    rw [Text.upper_append, List.isPrefixOf_iff_prefix]
    exact List.prefix_append ..
  have hword : a.length = 0 ∨ (!((a ++ (w ++ '(' :: r))[a.length - 1]?.any continuesName)) = true := by
    rcases List.eq_nil_or_concat a with rfl | ⟨a, x, rfl⟩
    · exact .inl rfl
    · right
      rw [List.concat_eq_append] at hs ⊢
      rw [List.length_append, List.length_singleton, Nat.add_sub_cancel, List.append_assoc,
        List.getElem?_append_right (Nat.le_refl _), Nat.sub_self]
      simpa using hs x List.getLast?_concat
  have hblank : ('(' :: r).takeWhile isBlank = [] := rfl
  have hparen : ('(' :: r).dropWhile isBlank = '(' :: r := rfl
  rw [argumentAt?, ha.drop_upper, if_pos ⟨hbegin, hword⟩]
  simp only [hdrop, hblank, hparen, List.length_nil, Nat.add_zero, List.head?_cons] at hopening ⊢
  rw [if_pos hopening, List.length_append, show w.upper.length = w.length from hw]

theorem argumentAt?_delimiter (hk : IsKeyword k) (ha : Text.Steady a) (hx : isDelimiter x = true) :
    argumentAt? (a ++ x :: b) k a.length = none := by
  apply argumentAt?_of_not_prefix ha
  rw [Text.upper_cons, upperChar_of_isDelimiter hx]
  cases k with
  | nil => cases hk.isName
  | cons c k =>
    intro hp
    obtain ⟨rfl, -⟩ := List.cons_prefix_cons.mp hp
    rw [hk.not_delimiter (List.mem_cons_self ..)] at hx
    cases hx

/-- In front of a word a keyword starts only if it is the word and a parenthesis follows. -/
theorem argumentAt?_word (hk : IsKeyword k) (ha : Text.Steady (a ++ w)) (hw : ∀ c ∈ w, isOrdinary c = true)
    (hr : startsDelimited r = true) (hnext : w.upper = k → (r.dropWhile isBlank).head? ≠ some '(') :
    argumentAt? (a ++ (w ++ r)) k a.length = none := by
  have hsame : w.upper = k → argumentAt? (a ++ (w ++ r)) k a.length = none := fun he =>
    argumentAt?_of_next (he ▸ ha.right.symm) (hnext he)
  by_cases hp : k <+: Text.upper (w ++ r)
  · rw [Text.upper_append] at hp
    obtain ⟨s, hs⟩ := hp
    rcases List.append_eq_append_iff.mp hs with ⟨u, hu, -⟩ | ⟨u, hu, hrest⟩
    · cases u with
      | nil => exact hsame (by rw [hu, List.append_nil])
      | cons v u =>
        have hlt : k.length < w.length := by
          have := congrArg List.length hu
          rw [show w.upper.length = w.length from ha.right, List.length_append, List.length_cons] at this
          omega
        have hy := hw _ (List.getElem_mem hlt)
        rw [← List.take_append_drop k.length w, List.append_assoc, List.drop_eq_getElem_cons hlt]
        refine argumentAt?_of_next (List.length_take_of_le (Nat.le_of_lt hlt)) ?_
        obtain ⟨hb, ho, -⟩ := isOrdinary_iff.mp hy
        rw [List.cons_append, List.dropWhile_cons_of_neg (by simp [hb]), List.head?_cons, ne_eq, Option.some_inj]
        exact ho
    · cases u with
      | nil => exact hsame (by rw [hu, List.append_nil])
      | cons d u =>
        -- the keyword would reach over the delimiter behind the word
        cases r with
        | nil => cases hrest
        | cons c r =>
          have hc : isDelimiter c = true := hr
          rw [Text.upper_cons, upperChar_of_isDelimiter hc] at hrest
          obtain ⟨rfl, -⟩ := List.cons.inj hrest
          have hmem : c ∈ k := by rw [hu]; simp
          rw [hk.not_delimiter hmem] at hc
          cases hc
  · exact argumentAt?_of_not_prefix ha.left hp

end

/-! ## A part of the text -/

def searchArgument (text k : Text) (ms : List Mark) : Option (Option Text) :=
  (ms.filter fun s => !s.role.inLiteral && s.depth == 0).findSome? fun s => argumentAt? text k s.index

theorem keywordArgument_eq_search (text keyword : Text) :
    keywordArgument text keyword = (searchArgument text keyword.upper (marks text)).join := rfl

theorem searchArgument_append (text k : Text) (ms ns : List Mark) :
    searchArgument text k (ms ++ ns) = (searchArgument text k ms).or (searchArgument text k ns) := by
  rw [searchArgument, List.filter_append, List.findSome?_append]
  rfl

section
variable {k a w r : Text} {n : Nesting} {next : Option Char} {ms : List Mark}

theorem searchArgument_of_depth (h : ∀ m ∈ ms, 1 ≤ m.depth) (text : Text) : searchArgument text k ms = none := by
  have hnil : (ms.filter fun s => !s.role.inLiteral && s.depth == 0) = [] := by
    rw [List.filter_eq_nil_iff]
    intro m hm
    have := h m hm
    simp only [Bool.and_eq_true, beq_iff_eq, not_and]
    omega
  rw [searchArgument, hnil]
  rfl

theorem mem_marksBefore {m : Mark} {i : Nat} {t : Text} (h : m ∈ marksBefore next n i t) :
    ∃ u x v, t = u ++ x :: v ∧ m.index = i + u.length := by
  induction t generalizing n i with
  | nil => cases h
  | cons c t ih =>
    rcases List.mem_cons.mp h with rfl | h
    · exact ⟨[], c, t, rfl, rfl⟩
    · obtain ⟨u, x, v, rfl, hi⟩ := ih h
      exact ⟨c :: u, x, v, rfl, by rw [hi, List.length_cons]; omega⟩

theorem searchArgument_part
    (h : ∀ u x v, w = u ++ x :: v → argumentAt? (a ++ u ++ (x :: v ++ r)) k (a ++ u).length = none) :
    searchArgument (a ++ (w ++ r)) k (marksBefore next n a.length w) = none := by
  rw [searchArgument, List.findSome?_eq_none_iff]
  intro m hm
  obtain ⟨u, x, v, rfl, hi⟩ := mem_marksBefore (List.mem_filter.mp hm).1
  have := h u x v rfl
  rw [List.length_append, ← hi] at this
  rw [← this]
  simp

theorem searchArgument_delimiters (hk : IsKeyword k) (ha : Text.Steady (a ++ w))
    (hw : ∀ c ∈ w, isDelimiter c = true) :
    searchArgument (a ++ (w ++ r)) k (marksBefore next n a.length w) = none := by
  refine searchArgument_part fun u x v he => ?_
  rw [he] at ha hw
  rw [← List.append_assoc] at ha
  exact argumentAt?_delimiter hk ha.left (hw x (by simp))

theorem searchArgument_command (hk : IsKeyword k) (ha : Text.Steady (a ++ w)) (hw : ∀ c ∈ w, isOrdinary c = true)
    (hr : startsDelimited r = true) (hnext : (r.dropWhile isBlank).head? ≠ some '(') :
    searchArgument (a ++ (w ++ r)) k (marksBefore next n a.length w) = none := by
  refine searchArgument_part fun u x v he => ?_
  rw [he] at ha hw
  rw [← List.append_assoc] at ha
  exact argumentAt?_word hk ha (fun c hc => hw c (List.mem_append_right _ hc)) hr fun _ => hnext

theorem searchArgument_keyword (hk : IsKeyword k) (ha : Text.Steady (a ++ w)) (hw : w.all continuesName = true)
    (hr : startsDelimited r = true) (hne : w.upper ≠ k) :
    searchArgument (a ++ (w ++ r)) k (marksBefore next n a.length w) = none := by
  rw [List.all_eq_true] at hw
  refine searchArgument_part fun u x v he => ?_
  rcases List.eq_nil_or_concat u with rfl | ⟨u, y, rfl⟩
  · rw [List.append_nil, ← List.nil_append (x :: v), ← he]
    exact argumentAt?_word hk ha (fun c hc => isOrdinary_of_continuesName (hw c hc)) hr fun h => absurd h hne
  · rw [List.concat_eq_append] at he ⊢
    have hy : continuesName y = true := hw y (by rw [he]; simp)
    have htext : a ++ (u ++ [y]) ++ (x :: v ++ r) = a ++ u ++ y :: (x :: v ++ r) := by simp
    have hplace : (a ++ (u ++ [y])).length = (a ++ u).length + 1 := by simp; omega
    rw [htext, hplace]
    exact argumentAt?_inside hy

end

end ControlLanguage
