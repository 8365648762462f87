import ControlLanguage.Proofs.Form.Parts

/-!
# Pieces of a group and the word it begins with

Parts read the pieces of a group one by one, from words and from groups in
parentheses. A pair of parentheses around the whole text is dropped: if the
text is a word in parentheses that the first part of the group and its own
first parts should have, it is read as the word and gets them back.
-/

namespace ControlLanguage

/-! ## Words in several parentheses -/

/-- A text in `d` pairs of parentheses, which a single special value does not get. -/
def nestParens : Nat → Text → Text
  | 0, w => w
  | d + 1, w => parenthesize (nestParens d w)

section
variable {w t : Text}

theorem parenthesize_inParens (t : Text) : parenthesize (inParens t) = inParens (inParens t) := rfl

theorem parenthesize_cases (t : Text) : parenthesize t = t ∧ t.head? = some '*' ∨ parenthesize t = inParens t := by
  by_cases h : (t.head? == some '*' && !t.contains ' ') = true
  · left
    simp only [Bool.and_eq_true, beq_iff_eq] at h
    exact ⟨if_pos (by simpa using h), h.1⟩
  · exact .inr (if_neg h)

theorem parenthesize_of_head (h : t.head? ≠ some '*') : parenthesize t = inParens t :=
  (parenthesize_cases t).resolve_left fun hp => h hp.2

theorem parenthesize_of_contains (h : t.contains ' ' = true) : parenthesize t = inParens t := by
  rw [parenthesize, h, Bool.not_true, Bool.and_false]
  rfl

theorem nestParens_special (h : parenthesize w = w) (d : Nat) : nestParens d w = w := by
  induction d with
  | zero => rfl
  | succ d ih => rw [nestParens, ih, h]

theorem nestParens_cases (w : Text) :
    (∀ d, nestParens d w = w) ∨ ∀ d, nestParens (d + 1) w = inParens (nestParens d w) := by
  rcases parenthesize_cases w with h | h
  · exact .inl (nestParens_special h.1)
  · right
    intro d
    induction d with
    | zero => exact h
    | succ d ih => rw [nestParens, ih, parenthesize_inParens]

theorem isPiece_nestParens (hw : IsWord w) (d : Nat) : IsPiece (nestParens d w) := by
  rcases nestParens_cases w with h | h
  · rw [h]
    exact .word hw
  · induction d with
    | zero => exact .word hw
    | succ d ih =>
      rw [h]
      exact .group ih.selfContained

theorem dropEnclosing_nestParens (hw : IsWord w) (d : Nat) :
    dropEnclosing (nestParens d w) = nestParens (d - 1) w := by
  rcases nestParens_cases w with h | h
  · rw [h, h]
    exact dropEnclosing_word hw
  · cases d with
    | zero => exact dropEnclosing_word hw
    | succ d =>
      have hpiece := isPiece_nestParens hw d
      rw [h]
      exact dropEnclosing_inParens hpiece.selfContained hpiece.trim.1

end

namespace Shape

/-! ## Reading the parts of a group -/

section
variable {keyword a t w : Text} {ws : List Text} {f v : Form} {fs : List Form} {s : Shape} {es ss : List Shape}

theorem value_write_read (hs : s.isSimple = false) (t : Text) :
    (s.write keyword (s.read t)).value = (s.write keyword (.leaf t)).value := by
  cases s with
  | simple => cases hs
  | qual ls => rw [write, write, partsUnder_leaf rfl]
  | elem ss => rw [value_write_group, value_write_group, partsUnder_leaf rfl]

theorem value_write_leaf (hw : Text.trim t = t) :
    (s.write keyword (s.read t)).value = (s.write keyword (.leaf t)).value := by
  cases s with
  | simple l => rw [read, hw]
  | qual ls => exact value_write_read rfl t
  | elem ss => exact value_write_read rfl t

theorem readParts_word (hs : s.isElem = false) (hw : IsWord w) (hws : ∀ v ∈ ws, IsPiece v)
    (hwrite : (s.write keyword (.leaf w)).value = w) : ∃ f, readParts (Text.unwords (w :: ws)) (s :: ss) =
      f :: readParts (Text.unwords ws) ss ∧ partText keyword f s = w := by
  cases s with
  | simple l =>
    refine ⟨.leaf w, ?_, (partText_of_not_isElem rfl).trans hwrite⟩
    rw [readParts, takeWord_unwords hw hws]
  | qual ls =>
    refine ⟨.parts ((qualifiedParts ls.length w).map .leaf), ?_, ?_⟩
    · rw [readParts, takeWord_unwords hw hws]
    · have hread : (qual ls).read w = .parts ((qualifiedParts ls.length w).map .leaf) := by rw [read]
      rw [partText_of_not_isElem rfl, ← hread, value_write_leaf hw.trim, hwrite]
  | elem => cases hs

theorem readParts_special (hw : IsWord w) (hws : ∀ v ∈ ws, IsPiece v) :
    readParts (Text.unwords (w :: ws)) (elem es :: ss) =
    .parts [.leaf w] :: readParts (Text.unwords ws) ss := by
  rw [readParts, takeGroup?_word hw hws, takeWord_unwords hw hws]
  simp [hw.ne_nil]

theorem readParts_group (ht : SelfContained t) (hws : ∀ v ∈ ws, IsPiece v) :
    readParts (Text.unwords (inParens t :: ws)) (elem es :: ss) =
    (elem es).read t :: readParts (Text.unwords ws) ss := by
  rw [readParts, takeGroup?_unwords ht hws]

theorem length_readParts (t : Text) (ss : List Shape) : (readParts t ss).length = ss.length := by
  induction ss generalizing t with
  | nil => rw [readParts]; rfl
  | cons s ss ih =>
    cases s with
    | simple => rw [readParts, List.length_cons, List.length_cons, ih]
    | qual => rw [readParts, List.length_cons, List.length_cons, ih]
    | elem =>
      rw [readParts]
      split <;> rw [List.length_cons, List.length_cons, ih]

theorem readParts_flat (hf : isFlat ss = true) (hws : ∀ w ∈ ws, IsWord w) (hl : ws.length ≤ ss.length) :
    readParts (Text.unwords ws) ss = (ws ++ List.replicate (ss.length - ws.length) []).map .leaf := by
  induction ss generalizing ws with
  | nil =>
    rw [List.length_eq_zero_iff.mp (Nat.le_zero.mp hl), readParts]
    rfl
  | cons s ss ih =>
    rw [isFlat, List.all_cons, Bool.and_eq_true] at hf
    cases s with
    | simple l =>
      cases ws with
      | nil =>
        have hrest : readParts (Text.unwords []) ss = _ := ih hf.2 (by simp) (by simp)
        rw [show Text.unwords [] = [] from rfl] at hrest ⊢
        rw [readParts, takeWord_nil]
        simp only [hrest]
        rfl
      | cons w ws =>
        obtain ⟨hw, hws⟩ := List.forall_mem_cons.mp hws
        rw [readParts, takeWord_unwords hw fun v hv => .word (hws v hv)]
        simp only [ih hf.2 hws (by simpa using hl)]
        simp
    | qual => cases hf.1
    | elem => cases hf.1

theorem read_pieces (ha : dropEnclosing a = Text.unwords ws) (hl : ws.length ≤ ss.length)
    (hws : isFlat ss = true → ∀ w ∈ ws, IsWord w) : (elem ss).read a = .parts (readParts (Text.unwords ws) ss) := by
  rw [read, ha]
  by_cases hf : isFlat ss = true
  · have hpieces : pieces (Text.unwords ws) = ws := by
      by_cases hn : ws = []
      · rw [hn]
        rfl
      · exact pieces_unwords hn (hws hf)
    simp only [hf, if_true, hpieces]
    rw [readParts_flat hf (hws hf) hl, fitTexts, if_neg (by omega)]
  · exact if_neg hf

theorem value_write_parts (h : fs.length = ss.length) :
    ((elem ss).write keyword (.parts fs)).value = joinParts (List.zipWith (partText keyword) fs ss) := by
  have hfit : fitParts ss.length fs = fs := by simp [fitParts, ← h]
  rw [value_write_group, Form.partsUnder, hfit]

theorem partTexts_of_empty (h : Form.areEmpty fs = true) : ∀ q ∈ List.zipWith (partText keyword) fs ss, q = [] := by
  intro q hq
  obtain ⟨f, hf, s, -, rfl⟩ := mem_zipWith hq
  exact partText_of_isEmpty (Form.areEmpty_iff.mp h f hf)

theorem joinParts_append {qs : List Text} (hws : ∀ w ∈ ws, w ≠ []) (hq : ∀ q ∈ qs, q = []) :
    joinParts (ws ++ qs) = Text.unwords ws := by
  have hkept : ((ws ++ qs).reverse.dropWhile (·.isEmpty)).reverse = ws := by
    rw [List.reverse_append, List.dropWhile_append_of_pos]
    · cases hr : ws.reverse with
      | nil => simpa using hr.symm
      | cons w vs =>
        have hw : w ≠ [] := hws w (List.mem_reverse.mp (by rw [hr]; exact List.mem_cons_self ..))
        rw [List.dropWhile_cons_of_neg (by simpa using hw), ← hr, List.reverse_reverse]
    · intro q hq'
      simp [hq q (List.mem_reverse.mp hq')]
  rw [joinParts, hkept]
  congr 1
  rw [List.map_congr_left (g := id), List.map_id]
  intro w hw
  simp [hws w hw]

theorem value_write_first (hf : partText keyword f s = w) (hw : w ≠ []) (hfs : Form.areEmpty fs = true) :
    ((elem (s :: ss)).write keyword (.parts (f :: fs))).value = w := by
  have hfit : fitParts (s :: ss).length (f :: fs) = f :: fitParts ss.length fs := by simp [fitParts]
  have hjoin : joinParts ([w] ++ List.zipWith (partText keyword) (fitParts ss.length fs) ss) = Text.unwords [w] :=
    joinParts_append (by simpa using hw) (partTexts_of_empty (areEmpty_fitParts hfs _))
  rw [value_write_group, Form.partsUnder, hfit, List.zipWith_cons_cons, hf]
  exact hjoin.trans (unwords_singleton w)

end

/-! ## Groups that begin with a word -/

section
variable {keyword w : Text} {d : Nat} {ss : List Shape}

/-- The first part of some parts, or of those of an inner group in the first place, and so on `d` times, is no
group and is written as the word `w`. -/
inductive HeadOf (keyword w : Text) : List Shape → Nat → Prop
  | leaf {s ss} : s.isElem = false → (s.write keyword (.leaf w)).value = w → HeadOf keyword w (s :: ss) 0
  | group {es ss d} : HeadOf keyword w es d → HeadOf keyword w (elem es :: ss) (d + 1)

/-- A word in any number of parentheses up to those of the groups that it begins is read as the first part of each
of them, and so is a word that stands for the whole group. -/
theorem HeadOf.write_read (h : HeadOf keyword w ss d) (hw : IsWord w) :
    (∀ k ≤ d, ((elem ss).write keyword ((elem ss).read (nestParens k w))).value = nestParens d w) ∧
      ((elem ss).write keyword (.parts [.leaf w])).value = nestParens d w := by
  have hne : ∀ d, nestParens d w ≠ [] := fun d => (isPiece_nestParens hw d).trim.2
  induction h with
  | @leaf s ss hs hwrite =>
    constructor
    · intro k hk
      obtain ⟨f, hparts, hf⟩ : ∃ f, readParts (Text.unwords [w]) (s :: ss) = f :: readParts (Text.unwords []) ss ∧
          _ :=
        readParts_word hs hw (by simp) hwrite
      have hread : (elem (s :: ss)).read w = .parts (readParts (Text.unwords [w]) (s :: ss)) :=
        read_pieces (by rw [dropEnclosing_word hw, unwords_singleton]) (by simp) fun _ => by simpa using hw
      rw [Nat.le_zero.mp hk, nestParens, hread, hparts]
      exact value_write_first hf hw.ne_nil (areEmpty_readParts_nil ss)
    · exact value_write_first ((partText_of_not_isElem hs).trans hwrite) hw.ne_nil rfl
  | @group es ss d _ ih =>
    obtain ⟨hread, hspecial⟩ := ih
    have htext : ∀ f, ((elem es).write keyword f).value = nestParens d w →
        partText keyword f (elem es) = nestParens (d + 1) w := by
      intro f hf
      rw [partText_elem (by rw [hf]; exact hne d), hf, nestParens]
    constructor
    · intro k hk
      have hflat : ¬isFlat (elem es :: ss) = true := by simp [isFlat, isSimple]
      have hgroup : (elem (elem es :: ss)).read (nestParens k w) =
          .parts (readParts (Text.unwords [nestParens (k - 1) w]) (elem es :: ss)) :=
        read_pieces (by rw [dropEnclosing_nestParens hw, unwords_singleton]) (by simp) fun h => absurd h hflat
      -- what is left is the word, or the word in parentheses that are those of the first part
      have hfirst : ∃ f, readParts (Text.unwords [nestParens (k - 1) w]) (elem es :: ss) = f :: readParts [] ss ∧
          ((elem es).write keyword f).value = nestParens d w := by
        have hword : nestParens (k - 1) w = w →
            ∃ f, readParts (Text.unwords [nestParens (k - 1) w]) (elem es :: ss) = f :: readParts [] ss ∧
              ((elem es).write keyword f).value = nestParens d w := by
          intro hk
          rw [hk]
          exact ⟨_, readParts_special hw (by simp), hspecial⟩
        rcases nestParens_cases w with hsame | hnest
        · exact hword (hsame _)
        · by_cases hlt : k ≤ 1
          · apply hword
            rw [show k - 1 = 0 by omega]
            rfl
          · obtain ⟨j, rfl⟩ : ∃ j, k = j + 2 := ⟨k - 2, by omega⟩
            refine ⟨_, ?_, hread j (by omega)⟩
            rw [show j + 2 - 1 = j + 1 from rfl, hnest j]
            exact readParts_group (isPiece_nestParens hw j).selfContained (by simp)
      obtain ⟨f, hparts, hf⟩ := hfirst
      rw [hgroup, hparts]
      exact value_write_first (htext f hf) (hne _) (areEmpty_readParts_nil ss)
    · apply value_write_first (htext _ _) (hne _) rfl
      rw [← value_write_leaf hw.trim]
      exact hread 0 (Nat.zero_le d)

end

end Shape

end ControlLanguage
