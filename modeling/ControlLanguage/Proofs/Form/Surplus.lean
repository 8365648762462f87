import ControlLanguage.Proofs.Expression
import ControlLanguage.Proofs.Form.Heads
import ControlLanguage.Proofs.Quoting

/-!
# Surplus words of a flat group

Names and special values that fill the parts of a flat group are written as
they were read. Surplus ones stand together in the last part, and there they
are one value: they are quoted as a whole unless they stand for themselves
for some other reason. So a group with too many words comes back with fewer:
`write_read_flat`.
-/

namespace ControlLanguage

/-- Whether several words in the place of one value are written as they are: as a command, behind a star, as one of
the special values or as an expression. -/
def Leaf.takesPhrase (l : Leaf) (ws : List Text) : Bool :=
  verbatimTypes.contains (typeName l.type) || (Text.unwords ws).head? == some '*' ||
    l.specialValues.any (·.upper == (Text.unwords ws).upper) || ws.any isOperatorWord

/-! ## Several words as one value -/

section
variable {t v w type : Text} {vs ws : List Text} {allowed : List Text} {l : Leaf}

theorem isEnclosed_of_head {q : Char} (h : t.head? ≠ some q) : isEnclosed q t = false := by
  rw [isEnclosed, beq_eq_false_iff_ne.mpr h, Bool.and_false, Bool.false_and]

theorem not_isHexadecimal_of_blank (h : ' ' ∈ t) : Word.isHexadecimal t = false := by
  rw [← Bool.not_eq_true]
  intro hhex
  obtain ⟨x, digits, rfl, hx, hdigits⟩ := isHexadecimal_cases hhex
  simp only [List.mem_cons, List.mem_append, List.not_mem_nil, or_false] at h
  rcases h with rfl | h | h | h
  · exact absurd hx (by decide)
  · exact absurd h (by decide)
  · exact absurd (hdigits _ h) (by decide)
  · exact absurd h (by decide)

theorem standsBare_of_blank (hb : ' ' ∈ t) (ht : Text.trim t = t) (hs : t.head? ≠ some '\'')
    (hd : t.head? ≠ some '"') :
    standsBare allowed type t = (t.head? == some '*' || allowed.any fun v => v.upper == t.upper) := by
  have hfalse : ∀ b : Bool, (b = true → ∀ c ∈ t, isOrdinary c = true) → b = false := by
    intro b h
    rw [← Bool.not_eq_true]
    exact fun hb' => absurd (h hb' ' ' hb) (by decide)
  have hsingle := isEnclosed_of_head hs
  have hdouble := isEnclosed_of_head hd
  rw [standsBare, hfalse _ isOrdinary_of_isVariable, not_isHexadecimal_of_blank hb, isQuoted, hsingle, hdouble,
    hfalse _ isOrdinary_of_isQualified, hfalse _ isOrdinary_of_isSimpleName,
    hfalse (isNameValue t) fun h => isOrdinary_of_isNameValue h ht hdouble hsingle]
  simp

theorem head_of_isPlain (h : isPlain w = true) : w.head? ≠ some '\'' ∧ w.head? ≠ some '"' := by
  rcases isPlain_cases h with h | ⟨name, rfl, -⟩
  · have hall := isOrdinary_of_isSimpleName h
    constructor
    · exact fun hq => absurd (hall _ (List.mem_of_head? hq)) (by decide)
    · exact fun hq => absurd (hall _ (List.mem_of_head? hq)) (by decide)
  · exact ⟨by simp, by simp⟩

theorem isName_of_head (h : isPlain w = true) (hs : w.head? ≠ some '*') : Word.isName w = true := by
  rcases isPlain_cases h with h | ⟨name, rfl, -⟩
  · rw [Word.isSimpleName, Bool.and_eq_true] at h
    exact h.2
  · exact absurd rfl hs

theorem literal_phrase (h : ∀ u ∈ w :: v :: vs, isPlain u = true) :
    literal (Text.unwords (w :: v :: vs)) l.specialValues l.type =
      if l.takesPhrase (w :: v :: vs) then Text.unwords (w :: v :: vs)
      else quote (Text.unwords (w :: v :: vs)) := by
  have hw : isPlain w = true := h w (List.mem_cons_self ..)
  have htrim : Text.trim (Text.unwords (w :: v :: vs)) = _ :=
    trim_unwords fun u hu => .word (isWord_of_isPlain (h u hu))
  have hblank : ' ' ∈ Text.unwords (w :: v :: vs) := List.contains_iff_mem.mp (contains_unwords w v vs)
  have hhead : (Text.unwords (w :: v :: vs)).head? = w.head? := head?_unwords (ne_nil_of_isPlain hw)
  have hexp := fun hs => isExpression_unwords (isName_of_head hw hs) h
  rw [Leaf.takesPhrase]
  generalize Text.unwords (w :: v :: vs) = t at *
  have hs : t.head? ≠ some '\'' := by rw [hhead]; exact (head_of_isPlain hw).1
  have hd : t.head? ≠ some '"' := by rw [hhead]; exact (head_of_isPlain hw).2
  have hnumber : Word.isNumber t = false := by
    rw [← Bool.not_eq_true]
    exact fun hn => absurd (isOrdinary_of_isNumber hn ' ' hblank) (by decide)
  have hnil : ¬(t = [] ∨ t = ['\'', '\'']) := by
    rintro (rfl | rfl)
    · cases hblank
    · exact hs rfl
  unfold literal
  simp only [htrim, standsBare_of_blank hblank htrim hs hd, Bool.or_assoc]
  by_cases hbare : (verbatimTypes.contains (typeName l.type) ||
      (t.head? == some '*' || l.specialValues.any fun u => u.upper == t.upper)) = true
  · rw [if_pos hbare, if_pos]
    simp only [Bool.or_eq_true] at hbare ⊢
    tauto
  · rw [if_neg hbare]
    simp only [Bool.not_eq_true, Bool.or_eq_false_iff, beq_eq_false_iff_ne] at hbare
    obtain ⟨hverbatim, hstar, hspecial⟩ := hbare
    rw [hexp (by rwa [← hhead]), hverbatim, beq_eq_false_iff_ne.mpr hstar, hspecial, hnumber, isEnclosed_of_head hs,
      if_neg hnil]
    rfl

/-! ## Texts for a number of parts -/

theorem length_fitTexts {n : Nat} (hn : 0 < n) (ts : List Text) : (fitTexts n ts).length = n := by
  unfold fitTexts
  split
  · rw [List.length_append, List.length_take, List.length_singleton]; omega
  · rw [List.length_append, List.length_replicate]; omega

theorem unwords_append_unwords (hn : ws ≠ []) (vs : List Text) :
    Text.unwords (vs ++ [Text.unwords ws]) = Text.unwords (vs ++ ws) := by
  obtain ⟨w, ws, rfl⟩ := List.exists_cons_of_ne_nil hn
  cases vs with
  | nil => exact unwords_singleton _
  | cons v vs =>
    rw [List.cons_append, List.cons_append, unwords_cons v, unwords_cons v, List.flatMap_append,
      List.flatMap_append,
      List.flatMap_singleton, cons_unwords]

end

/-! ## Flat groups -/

namespace Shape

section
variable {keyword : Text} {ls : List Leaf} {l : Leaf} {ts ws : List Text}

theorem value_write_leaves (hl : ts.length = ls.length) :
    ((elem (ls.map simple)).write keyword (.parts (ts.map .leaf))).value =
    joinParts (List.zipWith Leaf.settle ls ts) := by
  have hpart : ∀ l t, partText keyword (.leaf t) (simple l) = l.settle t :=
    fun l t => (partText_of_not_isElem rfl).trans value_write_simple
  rw [value_write_parts (by rw [List.length_map, List.length_map, hl]), List.zipWith_map, List.zipWith_comm]
  simp only [hpart]

theorem write_read_fitting (h : ∀ w ∈ ws, isPlain w = true) (hl : ws.length ≤ ls.length) :
    joinParts (List.zipWith Leaf.settle ls (fitTexts ls.length ws)) = Text.unwords ws := by
  rw [fitTexts, if_neg (by omega), Leaf.zipWith_settle, List.map_append, map_unlessBlank h]
  · apply joinParts_append
    · exact fun w hw => ne_nil_of_isPlain (h w hw)
    · intro q hq
      obtain ⟨t, ht, rfl⟩ := List.mem_map.mp hq
      rw [List.eq_of_mem_replicate ht]
      rfl
  · rw [List.length_append, List.length_replicate]; omega
  · refine List.forall_mem_append.mpr ⟨fun w hw => .inr (h w hw), fun t ht => .inl ?_⟩
    rw [List.eq_of_mem_replicate ht]
    rfl

theorem settle_phrase (h : ∀ w ∈ ws, isPlain w = true) (hl : 2 ≤ ws.length) :
    l.settle (Text.unwords ws) = if l.takesPhrase ws then Text.unwords ws else quote (Text.unwords ws) := by
  match ws, hl with
  | w :: v :: vs, _ => rw [Leaf.settle_eq, literal_phrase h]

theorem write_read_surplus (h : ∀ w ∈ ws, isPlain w = true) (hl : ls.length + 1 < ws.length) :
    joinParts (List.zipWith Leaf.settle (ls ++ [l]) (fitTexts (ls.length + 1) ws)) =
      Text.unwords (ws.take ls.length ++ [l.settle (Text.unwords (ws.drop ls.length))]) := by
  have htake : ∀ w ∈ ws.take ls.length, isPlain w = true := fun w hw => h w (List.mem_of_mem_take hw)
  have hlen : (ws.take ls.length).length = ls.length := by rw [List.length_take]; omega
  have hphrase : l.settle (Text.unwords (ws.drop ls.length)) ≠ [] := by
    have hwords : ∀ w ∈ ws.drop ls.length, IsPiece w :=
      fun w hw => .word (isWord_of_isPlain (h w (List.mem_of_mem_drop hw)))
    obtain ⟨w, vs, hdrop⟩ := List.exists_cons_of_ne_nil
      (List.drop_eq_nil_iff.not.mpr (show ¬ws.length ≤ ls.length by omega))
    rw [Ne, Leaf.settle_eq_nil_iff, Text.isBlankText, trim_unwords hwords, List.isEmpty_iff, hdrop]
    rw [hdrop] at hwords
    exact unwords_ne_nil (hwords w (List.mem_cons_self ..)).trim.2
  rw [fitTexts, if_pos hl, Nat.add_sub_cancel, List.zipWith_append hlen.symm,
    Leaf.zipWith_settle hlen fun w hw => .inr (htake w hw), map_unlessBlank htake,
    ← List.append_nil (_ ++ List.zipWith Leaf.settle [l] _)]
  refine joinParts_append (List.forall_mem_append.mpr ⟨fun w hw => ne_nil_of_isPlain (htake w hw), ?_⟩) (by simp)
  exact List.forall_mem_singleton.mpr hphrase

/-- Names and special values in a flat group are written as they were read if there is one for each part at most, or
if the surplus ones stand for themselves as one value. Otherwise the surplus ones become one quoted text. -/
theorem write_read_flat (keyword : Text) (ls : List Leaf) (l : Leaf) (h : ∀ w ∈ ws, isPlain w = true) :
    let s := elem ((ls ++ [l]).map simple)
    (s.write keyword (s.read (Text.unwords ws))).value =
      if ws.length ≤ ls.length + 1 ∨ l.takesPhrase (ws.drop ls.length) = true then Text.unwords ws
      else Text.unwords (ws.take ls.length ++ [quote (Text.unwords (ws.drop ls.length))]) := by
  intro s
  have hlen : (ls ++ [l]).length = ls.length + 1 := List.length_append
  have hread : s.read (Text.unwords ws) = _ := read_words fun w hw => isWord_of_isPlain (h w hw)
  rw [hread, value_write_leaves (length_fitTexts (by omega) ws)]
  by_cases hl : ws.length ≤ ls.length + 1
  · rw [if_pos (.inl hl)]
    exact write_read_fitting h (by omega)
  · have hdrop : ∀ w ∈ ws.drop ls.length, isPlain w = true := fun w hw => h w (List.mem_of_mem_drop hw)
    have hmany : 2 ≤ (ws.drop ls.length).length := by rw [List.length_drop]; omega
    rw [hlen, write_read_surplus h (by omega), settle_phrase hdrop hmany]
    by_cases hp : l.takesPhrase (ws.drop ls.length) = true
    · rw [if_pos hp, if_pos (.inr hp), unwords_append_unwords (List.ne_nil_of_length_pos (by omega)),
        List.take_append_drop]
    · rw [if_neg hp, if_neg (by tauto)]

theorem write_read_flat_operator :
    let leaf : Leaf := ⟨[], []⟩
    let s := elem ([leaf, leaf].map simple)
    (s.write [] (s.read "A B *EQ $C".toList)).value = "A B *EQ $C".toList := by
  intro leaf s
  have hwrite := @write_read_flat ["A".toList, "B".toList, "*EQ".toList, "$C".toList] [] [leaf] leaf (by decide)
  rwa [if_pos (.inr (by decide))] at hwrite

/-- Three names for two parts become a name and a quoted text. -/
theorem write_read_flat_quoted : ¬∀ (ls : List Leaf) (ws : List Text),
    ls ≠ [] → (∀ l ∈ ls, verbatimTypes.contains (typeName l.type) = false) → ws ≠ [] →
    (∀ w ∈ ws, isPlain w = true) →
      ((elem (ls.map simple)).write [] ((elem (ls.map simple)).read (Text.unwords ws))).value =
      Text.unwords ws := by
  intro h
  let leaf : Leaf := ⟨[], []⟩
  let s := elem ([leaf, leaf].map simple)
  have hquoted : (s.write [] (s.read "A B C".toList)).value = "A 'B C'".toList := by with_unfolding_all decide
  have hsame : (s.write [] (s.read "A B C".toList)).value = "A B C".toList :=
    h [leaf, leaf] ["A".toList, "B".toList, "C".toList] (by simp) (by decide) (by simp) (by decide)
  rw [hquoted] at hsame
  exact absurd hsame (by decide)

end

end Shape

end ControlLanguage
