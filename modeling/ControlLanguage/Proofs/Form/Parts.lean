import ControlLanguage.Proofs.Form.Names

/-!
# The parts of a group

A part takes its piece from the start of what the parts before it left: a
word, or the inside of a group in parentheses. Parts that find nothing are
blank, and blank parts are written as nothing.
-/

namespace ControlLanguage

section
variable {t w : Text} {ts ws : List Text}

/-! ## Pieces at the start of a text -/

theorem trimLeft_unwords (h : ∀ w ∈ ws, IsPiece w) : Text.trimLeft (Text.unwords ws) = Text.unwords ws := by
  cases ws with
  | nil => rfl
  | cons w vs =>
    have hw := h w (List.mem_cons_self ..)
    have hhead : ∀ c ∈ (Text.unwords (w :: vs)).head?, isSpace c = false := by
      rw [head?_unwords hw.trim.2]
      exact hw.opens
    cases hu : Text.unwords (w :: vs) with
    | nil => rfl
    | cons c cs =>
      rw [hu] at hhead
      exact List.dropWhile_cons_of_neg (by simp [hhead c rfl])

theorem exists_unwords_cons (w : Text) (h : ∀ v ∈ ws, IsPiece v) : ∃ rest, Text.unwords (w :: ws) = w ++ rest ∧
    Text.trimLeft rest = Text.unwords ws ∧ (rest = [] ∨ ∃ r, rest = ' ' :: r) := by
  cases ws with
  | nil => exact ⟨[], by rw [unwords_singleton, List.append_nil], rfl, .inl rfl⟩
  | cons v vs =>
    refine ⟨' ' :: Text.unwords (v :: vs), unwords_cons_cons .., ?_, .inr ⟨_, rfl⟩⟩
    exact (List.dropWhile_cons_of_pos (by decide)).trans (trimLeft_unwords h)

theorem takeWord_unwords (hw : IsWord w) (h : ∀ v ∈ ws, IsPiece v) (atGroup : Bool) :
    takeWord atGroup (Text.unwords (w :: ws)) = (w, Text.unwords ws) := by
  obtain ⟨rest, happ, htrim, hrest⟩ := exists_unwords_cons w h
  have hleft : Text.trimLeft (Text.unwords (w :: ws)) = w ++ rest := by
    rw [trimLeft_unwords, happ]
    exact List.forall_mem_cons.mpr ⟨.word hw, h⟩
  have hquote : rest.head? ≠ some '\'' := by
    rcases hrest with rfl | ⟨r, rfl⟩ <;> simp
  obtain ⟨hall, hend⟩ := hw.unbroken.scan hquote 0 0
  have hlen : (((marksBefore rest.head? ⟨.outside, 0⟩ 0 w ++ marksFrom ⟨.outside, 0⟩ (0 + w.length) rest).takeWhile
      fun s => !(s.isTopBlank || (atGroup && s.role == .parenOpen && s.depth == 0))).length) = w.length := by
    rw [List.takeWhile_append_of_pos]
    · rcases hrest with rfl | ⟨r, rfl⟩
      · simp [marksFrom, length_marksBefore]
      · rw [marksFrom_cons, List.takeWhile_cons_of_neg
          (by simp [Mark.isTopBlank, Nesting.step, Nesting.depthAt, isBlank])]
        simp [length_marksBefore]
    · intro m hm
      obtain ⟨hblank, hopen, -⟩ := Mark.of_inWord (hall m hm)
      simp [hblank, hopen]
  unfold takeWord
  simp only [hleft, marks_eq, marksFrom_append, Nesting.start, hend, hlen, List.take_left, List.drop_left, htrim]

theorem takeWord_nil (atGroup : Bool) : takeWord atGroup [] = ([], []) := rfl

theorem takeGroup?_unwords (ht : SelfContained t) (h : ∀ v ∈ ws, IsPiece v) :
    takeGroup? (Text.unwords (inParens t :: ws)) = some (t, Text.unwords ws) := by
  obtain ⟨rest, happ, htrim, -⟩ := exists_unwords_cons (inParens t) h
  have hleft : Text.trimLeft (Text.unwords (inParens t :: ws)) = inParens t ++ rest := by
    rw [trimLeft_unwords, happ]
    exact List.forall_mem_cons.mpr ⟨.group ht, h⟩
  have hdrop : (inParens t ++ rest).drop (t.length + 1 + 1) = rest := by
    rw [show t.length + 1 + 1 = (inParens t).length by simp [inParens], List.drop_left]
  unfold takeGroup?
  simp only [hleft, ht.closingParen? rest, Option.getD_some, hdrop, htrim]
  have hhead : (inParens t ++ rest).head? = some '(' := rfl
  rw [if_pos hhead, inParens]
  simp

theorem takeGroup?_word (hw : IsWord w) (h : ∀ v ∈ ws, IsPiece v) : takeGroup? (Text.unwords (w :: ws)) = none := by
  unfold takeGroup?
  simp only [trimLeft_unwords (List.forall_mem_cons.mpr ⟨.word hw, h⟩), head?_unwords hw.ne_nil]
  exact if_neg hw.head?_ne_open

end

/-! ## Blank forms -/

namespace Form

theorem areEmpty_iff {fs : List Form} : areEmpty fs = true ↔ ∀ f ∈ fs, f.isEmpty = true := by
  induction fs with
  | nil => simp [areEmpty]
  | cons f fs ih => rw [areEmpty, Bool.and_eq_true, ih, List.forall_mem_cons]

theorem flatTexts_of_empty {fs : List Form} (h : areEmpty fs = true) : flatTexts fs = [] := by
  induction fs with
  | nil => rfl
  | cons f fs ih =>
    rw [areEmpty, Bool.and_eq_true] at h
    rw [flatTexts, if_pos h.1, ih h.2]

theorem isBlankText_flatText {v : Form} (h : v.isEmpty = true) : Text.isBlankText v.flatText = true := by
  cases v with
  | leaf t => exact h
  | parts items =>
    rw [flatText, flatTexts_of_empty h]
    rfl

theorem areEmpty_blanks (n : Nat) : areEmpty ((List.replicate n ([] : Text)).map leaf) = true := by
  rw [areEmpty_iff]
  intro f hf
  obtain ⟨t, ht, rfl⟩ := List.mem_map.mp hf
  rw [List.eq_of_mem_replicate ht]
  rfl

end Form

namespace Shape

variable {keyword t : Text} {v : Form} {s : Shape} {ss : List Shape}

/-- A shape by its constructors, with the parts of a group by membership. -/
theorem parts_induction {P : Shape → Prop} (simple : ∀ l, P (simple l)) (qual : ∀ ls, P (qual ls))
    (elem : ∀ ss, (∀ s ∈ ss, P s) → P (elem ss)) : ∀ s, P s
  | .simple l => simple l
  | .qual ls => qual ls
  | .elem ss => elem ss fun s _ => parts_induction simple qual elem s

theorem dropEnclosing_of_blank (h : Text.isBlankText t = true) : dropEnclosing t = [] := by
  have ht : Text.trim t = [] := List.isEmpty_iff.mp h
  rw [dropEnclosing, ht]
  rfl

theorem areEmpty_readParts_nil (ss : List Shape) : Form.areEmpty (readParts [] ss) = true := by
  induction ss with
  | nil => rw [readParts]; rfl
  | cons s ss ih =>
    cases s with
    | simple => rw [readParts, takeWord_nil, Form.areEmpty, ih]; rfl
    | qual ls =>
      rw [readParts, takeWord_nil, Form.areEmpty, ih, Form.isEmpty]
      exact (Bool.and_true _).trans (Form.areEmpty_blanks ls.length)
    | elem es =>
      rw [readParts, show takeGroup? [] = none from rfl, takeWord_nil]
      exact ih

theorem isEmpty_read (h : Text.isBlankText t = true) : (s.read t).isEmpty = true := by
  cases s with
  | simple l =>
    rw [read, List.isEmpty_iff.mp h]
    rfl
  | qual ls =>
    rw [read, qualifiedParts, dropEnclosing_of_blank h]
    exact Form.areEmpty_blanks ls.length
  | elem ss =>
    rw [read, dropEnclosing_of_blank h]
    split
    · have hfit : fitTexts ss.length (pieces []) = List.replicate ss.length [] := by
        rw [show pieces [] = [] from rfl, fitTexts]
        simp
      rw [hfit]
      exact Form.areEmpty_blanks ss.length
    · exact areEmpty_readParts_nil ss

theorem exists_read_parts (hs : s.isSimple = false) (t : Text) : ∃ items, s.read t = .parts items := by
  cases s with
  | simple => cases hs
  | qual => exact ⟨_, by rw [read]⟩
  | elem ss =>
    rw [read]
    by_cases hf : isFlat ss = true
    · exact ⟨_, if_pos hf⟩
    · exact ⟨_, if_neg hf⟩

theorem partsUnder_leaf (hs : s.isSimple = false) (t : Text) :
    (Form.leaf t).partsUnder s = (s.read t).partsUnder s := by
  obtain ⟨items, hread⟩ := exists_read_parts hs t
  simp only [Form.partsUnder, hread]

theorem areEmpty_partsUnder (h : v.isEmpty = true) (hs : s.isSimple = false) :
    Form.areEmpty (v.partsUnder s) = true := by
  cases v with
  | parts items => exact h
  | leaf t =>
    obtain ⟨items, hread⟩ := exists_read_parts hs t
    have hempty : (s.read t).isEmpty = true := isEmpty_read h
    rw [hread] at hempty
    rw [partsUnder_leaf hs, hread]
    exact hempty

/-! ## Written parts -/

def partText (keyword : Text) (v : Form) (s : Shape) : Text :=
  if s.isElem && !(s.write keyword v).value.isEmpty then parenthesize (s.write keyword v).value
  else (s.write keyword v).value

theorem partText_of_not_isElem (h : s.isElem = false) : partText keyword v s = (s.write keyword v).value := by
  rw [partText, h]
  rfl

theorem partText_elem (h : ((elem ss).write keyword v).value ≠ []) :
    partText keyword v (elem ss) = parenthesize ((elem ss).write keyword v).value := by
  rw [partText, if_pos]
  simpa [isElem] using h

theorem value_writeParts_eq (vs : List Form) (ss : List Shape) :
    (writeParts keyword vs ss).value = List.zipWith (partText keyword) vs ss := by
  induction ss generalizing vs with
  | nil => cases vs <;> rfl
  | cons s ss ih =>
    cases vs with
    | nil => rfl
    | cons v vs =>
      rw [writeParts, List.zipWith_cons_cons, ← ih]
      rfl

def fitParts (n : Nat) (vs : List Form) : List Form := vs.take n ++ List.replicate (n - vs.length) (.leaf [])

theorem value_adjustParts_eq (n : Nat) (vs : List Form) : (adjustParts keyword n vs).value = fitParts n vs := by
  unfold adjustParts
  split <;> rfl

theorem value_write_group : ((elem ss).write keyword v).value =
    joinParts (List.zipWith (partText keyword) (fitParts ss.length (v.partsUnder (elem ss))) ss) := by
  rw [write, Logged.value_bind, value_adjustParts_eq, Logged.value_bind, value_writeParts_eq]
  rfl

theorem areEmpty_fitParts {vs : List Form} (h : Form.areEmpty vs = true) (n : Nat) :
    Form.areEmpty (fitParts n vs) = true := by
  rw [Form.areEmpty_iff] at h ⊢
  intro f hf
  rcases List.mem_append.mp hf with hf | hf
  · exact h f (List.mem_of_mem_take hf)
  · rw [List.eq_of_mem_replicate hf]
    rfl

theorem mem_zipWith {α β γ : Type} {f : α → β → γ} {as : List α} {bs : List β} {c : γ}
    (h : c ∈ List.zipWith f as bs) : ∃ a ∈ as, ∃ b ∈ bs, c = f a b := by
  rw [← List.map_uncurry_zip_eq_zipWith] at h
  obtain ⟨⟨a, b⟩, hmem, rfl⟩ := List.mem_map.mp h
  obtain ⟨ha, hb⟩ := List.of_mem_zip hmem
  exact ⟨a, ha, b, hb, rfl⟩

theorem joinParts_of_empty {qs : List Text} (h : ∀ q ∈ qs, q = []) : joinParts qs = [] := by
  have hdrop : qs.reverse.dropWhile (·.isEmpty) = [] := by
    rw [List.dropWhile_eq_nil_iff]
    intro q hq
    simp [h q (List.mem_reverse.mp hq)]
  rw [joinParts, hdrop]
  rfl

theorem value_write_of_isEmpty (h : v.isEmpty = true) : (s.write keyword v).value = [] := by
  induction s using parts_induction generalizing v with
  | simple l =>
    rw [write, if_pos (Form.isBlankText_flatText h)]
    rfl
  | qual ls =>
    have hparts := areEmpty_fitParts (areEmpty_partsUnder h (s := qual ls) rfl) ls.length
    have hjoin : joinQualified (List.zipWith Leaf.write ls (fitParts ls.length (v.partsUnder (qual ls)))) = [] := by
      rw [joinQualified, List.filter_eq_nil_iff.mpr]
      · rfl
      · intro q hq
        obtain ⟨l, -, f, hf, rfl⟩ := mem_zipWith hq
        simp [Leaf.write, literal_of_blank (Form.isBlankText_flatText (Form.areEmpty_iff.mp hparts f hf))]
    rw [write, Logged.value_bind, value_adjustParts_eq]
    exact hjoin
  | elem ss ih =>
    have hparts := areEmpty_fitParts (areEmpty_partsUnder h (s := elem ss) rfl) ss.length
    rw [value_write_group]
    apply joinParts_of_empty
    intro q hq
    obtain ⟨f, hf, s, hs, rfl⟩ := mem_zipWith hq
    rw [partText, ih s hs (Form.areEmpty_iff.mp hparts f hf)]
    simp

theorem partText_of_isEmpty (h : v.isEmpty = true) : partText keyword v s = [] := by
  rw [partText, value_write_of_isEmpty h]
  simp

end Shape

end ControlLanguage
