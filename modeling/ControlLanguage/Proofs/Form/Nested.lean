import ControlLanguage.Proofs.Form.Heads

/-!
# Nested groups

A group of names is written as pieces side by side, inner groups in
parentheses, and what is read from the text is written as the same text
again. One pair of parentheses around a whole group is dropped when it is
read, also if they are those of an inner group that stands alone in the first
place: then the inner group must have no more than a first part itself.
-/

namespace ControlLanguage

namespace Shape

/-- A form of a shape whose leaves are names or blank. Blank parts of a qualified name come last. -/
inductive Names : Shape → Form → Prop
  | simple {l t} : (Text.isBlankText t = true ∨ Word.isSimpleName t = true) → Names (simple l) (.leaf t)
  | qual {ls : List Leaf} {ts : List Text} : ts.length = ls.length →
      (∀ t ∈ ts, Text.isBlankText t = true ∨ Word.isSimpleName t = true) →
      ts.Pairwise (fun s t => Text.isBlankText s = true → Text.isBlankText t = true) →
      Names (qual ls) (.parts (ts.map .leaf))
  | elem {ss vs} : List.Forall₂ Names ss vs → Names (elem ss) (.parts vs)

/-- Whether the first part is an inner group with nothing but a first part, if no other part is filled in. -/
def LoneFirst (ss : List Shape) (vs : List Form) : Prop :=
  ∀ es us fs, (elem es) ∈ ss.head? → vs = .parts us :: fs → Form.areEmpty fs = true → Form.areEmpty us.tail = true

/-- A form in which no inner group with several parts is the only part of a group and the first one. -/
inductive NoLoneGroup : Shape → Form → Prop
  | part {s v} : s.isElem = false → NoLoneGroup s v
  | elem {ss vs} : LoneFirst ss vs → List.Forall₂ NoLoneGroup ss vs → NoLoneGroup (elem ss) (.parts vs)

section
variable {keyword t w : Text} {ts ws : List Text} {v : Form} {vs : List Form} {s : Shape} {es ss : List Shape}
    {l : Leaf}
  {ls : List Leaf}

/-! ## Names as parts -/

theorem isPlain_of_isSimpleName (h : Word.isSimpleName t = true) : isPlain t = true := by
  rw [isPlain, h, Bool.true_or]

theorem value_write_leaf_simple (h : isPlain t = true) : ((simple l).write keyword (.leaf t)).value = t := by
  rw [value_write_simple]
  exact Leaf.settle_of_isPlain h

theorem unlessBlank_unlessBlank (t : Text) : unlessBlank (unlessBlank t) = unlessBlank t := by
  unfold unlessBlank
  by_cases h : Text.isBlankText t = true
  · simp [h]
  · simp [h]

theorem plain_unlessBlank (h : Text.isBlankText t = true ∨ isPlain t = true) :
    Text.isBlankText (unlessBlank t) = true ∨ isPlain (unlessBlank t) = true := by
  by_cases hb : Text.isBlankText t = true
  · left
    rw [unlessBlank_eq_nil_iff.mpr hb]
    rfl
  · right
    rw [unlessBlank, if_neg hb]
    exact h.resolve_left hb

theorem value_write_qual_plain (hl : ts.length = ls.length)
    (h : ∀ t ∈ ts, Text.isBlankText t = true ∨ isPlain t = true)
    (hb : ts.Pairwise fun s t => Text.isBlankText s = true → Text.isBlankText t = true)
    (hn : ∃ t ∈ ts, Text.isBlankText t = false) :
    ((qual ls).write keyword (.parts (ts.map .leaf))).value = joinQualified (ts.map unlessBlank) ∧
      IsWord (joinQualified (ts.map unlessBlank)) ∧
        ((qual ls).write keyword (.leaf (joinQualified (ts.map unlessBlank)))).value =
        joinQualified (ts.map unlessBlank) := by
  have htakes := Leaf.forall₂_takes hl h
  have hparts := areParts_settle htakes
  have hsome := exists_settle_ne_nil htakes hn
  have hlast := pairwise_settle htakes hb
  have hwrite : ((qual ls).write keyword (.parts (ts.map .leaf))).value = _ := value_write_qual htakes
  rw [Leaf.zipWith_settle hl h] at hparts hsome hlast hwrite
  have hword := isWord_joinQualified hparts hsome
  refine ⟨hwrite, hword, ?_⟩
  have hread : (qual ls).read (joinQualified (ts.map unlessBlank)) = .parts ((ts.map unlessBlank).map .leaf) := by
    have := qualifiedParts_joinQualified hparts hsome hlast (dropEnclosing_word hword)
    rw [List.length_map, hl] at this
    rw [read, this]
  have hplain : ∀ q ∈ ts.map unlessBlank, Text.isBlankText q = true ∨ isPlain q = true := by
    intro q hq
    obtain ⟨t, ht, rfl⟩ := List.mem_map.mp hq
    exact plain_unlessBlank (h t ht)
  have hlen : (ts.map unlessBlank).length = ls.length := by rw [List.length_map, hl]
  rw [← value_write_leaf hword.trim, hread, value_write_qual (Leaf.forall₂_takes hlen hplain),
    Leaf.zipWith_settle hlen hplain, List.map_map]
  congr 1
  apply List.map_congr_left
  intro t _
  exact unlessBlank_unlessBlank t

theorem value_write_leaf_plain (hs : s.isElem = false) (hp : s.isProper = true) (h : isPlain w = true) :
    (s.write keyword (.leaf w)).value = w := by
  cases s with
  | simple l => exact value_write_leaf_simple h
  | qual ls =>
    cases ls with
    | nil => cases hp
    | cons l ls =>
      have hblanks : ∀ t ∈ List.replicate ls.length ([] : Text), t = [] := fun t ht => List.eq_of_mem_replicate ht
      have hjoin : joinQualified ((w :: List.replicate ls.length []).map unlessBlank) = w := by
        have hw : unlessBlank w = w := by rw [unlessBlank, isBlankText_of_isPlain h]; rfl
        have hfilter : (List.replicate ls.length (unlessBlank [])).filter (!·.isEmpty) = [] := by
          rw [List.filter_eq_nil_iff]
          intro q hq
          rw [List.eq_of_mem_replicate hq]
          decide
        rw [joinQualified, List.map_cons, List.map_replicate, hw,
          List.filter_cons_of_pos (by simpa using ne_nil_of_isPlain h), hfilter]
        exact List.intercalate_singleton
      have hplain : ∀ t ∈ w :: List.replicate ls.length [], Text.isBlankText t = true ∨ isPlain t = true := by
        rw [List.forall_mem_cons]
        exact ⟨.inr h, fun t ht => .inl (by rw [hblanks t ht]; rfl)⟩
      have hlast : (w :: List.replicate ls.length []).Pairwise fun s t =>
          Text.isBlankText s = true → Text.isBlankText t = true := by
        rw [List.pairwise_cons]
        constructor
        · intro t ht _
          rw [hblanks t ht]
          rfl
        · rw [List.pairwise_replicate]
          right
          exact id
      have hwrite : _ ∧ _ ∧ ((qual (l :: ls)).write keyword _).value = _ :=
        value_write_qual_plain (by simp) hplain hlast
        ⟨w, List.mem_cons_self .., isBlankText_of_isPlain h⟩
      rw [hjoin] at hwrite
      exact hwrite.2.2
  | elem => cases hs

/-! ## Parts that are read and written as themselves -/

/-- A written part of a group from which the part is read again: a word, a word that stands for a whole group, or a
group in parentheses. -/
inductive ReadsBack (keyword : Text) : Shape → Text → Prop
  | word {p q} : p.isElem = false → IsWord q → (p.write keyword (.leaf q)).value = q → ReadsBack keyword p q
  | special {ps q} : IsWord q → ((elem ps).write keyword (.parts [.leaf q])).value = q → parenthesize q = q →
      ReadsBack keyword (elem ps) q
  | group {ps q} : SelfContained q → q ≠ [] → parenthesize q = inParens q →
      ((elem ps).write keyword ((elem ps).read q)).value = q → ReadsBack keyword (elem ps) (inParens q)

theorem ReadsBack.isPiece (h : ReadsBack keyword s w) : IsPiece w := by
  cases h with
  | word _ hw => exact .word hw
  | special hw => exact .word hw
  | group ht => exact .group ht

theorem ReadsBack.exists_part (h : ReadsBack keyword s w) (hws : ∀ v ∈ ws, IsPiece v) (ss : List Shape) :
    ∃ f, readParts (Text.unwords (w :: ws)) (s :: ss) = f :: readParts (Text.unwords ws) ss ∧
      partText keyword f s = w := by
  cases h with
  | word hs hw hwrite => exact readParts_word hs hw hws hwrite
  | special hw hwrite hspecial =>
    refine ⟨_, readParts_special hw hws, ?_⟩
    rw [partText_elem (by rw [hwrite]; exact hw.ne_nil), hwrite, hspecial]
  | group ht hne hparens hwrite =>
    refine ⟨_, readParts_group ht hws, ?_⟩
    rw [partText_elem (by rw [hwrite]; exact hne), hwrite, hparens]

theorem isPiece_of_mem (h : List.Forall₂ (ReadsBack keyword) es ws) : ∀ w ∈ ws, IsPiece w := by
  induction h with
  | nil => simp
  | cons hw _ ih => exact List.forall_mem_cons.mpr ⟨hw.isPiece, ih⟩

theorem partTexts_readParts (h : List.Forall₂ (ReadsBack keyword) es ws) (ss : List Shape) :
    ∃ qs, List.zipWith (partText keyword) (readParts (Text.unwords ws) (es ++ ss)) (es ++ ss) = ws ++ qs ∧
      ∀ q ∈ qs, q = [] := by
  induction h with
  | nil => exact ⟨_, rfl, partTexts_of_empty (areEmpty_readParts_nil ss)⟩
  | @cons s w es ws hw hws ih =>
    obtain ⟨qs, htexts, hqs⟩ := ih
    obtain ⟨f, hread, hf⟩ := hw.exists_part (isPiece_of_mem hws) (es ++ ss)
    refine ⟨qs, ?_, hqs⟩
    rw [List.cons_append, hread, List.zipWith_cons_cons, hf, htexts, List.cons_append]

/-- Pieces that the parts of a group read back make a text that the group reads back. -/
theorem write_read_pieces (h : List.Forall₂ (ReadsBack keyword) es ws)
    (hd : dropEnclosing (Text.unwords ws) = Text.unwords ws) :
    ((elem (es ++ ss)).write keyword ((elem (es ++ ss)).read (Text.unwords ws))).value = Text.unwords ws := by
  have hwords : isFlat (es ++ ss) = true → ∀ w ∈ ws, IsWord w := by
    intro hf
    rw [isFlat, List.all_append, Bool.and_eq_true] at hf
    have hes := hf.1
    clear hd hf
    induction h with
    | nil => simp
    | cons hw _ ih =>
      rw [List.all_cons, Bool.and_eq_true] at hes
      rw [List.forall_mem_cons]
      refine ⟨?_, ih hes.2⟩
      cases hw with
      | word _ hw => exact hw
      | special => cases hes.1
      | group => cases hes.1
  have hne : ∀ w ∈ ws, w ≠ [] := fun w hw => (isPiece_of_mem h w hw).trim.2
  obtain ⟨qs, htexts, hqs⟩ := partTexts_readParts h ss
  rw [read_pieces hd (by rw [List.length_append, h.length_eq]; omega) hwords,
    value_write_parts (length_readParts ..),
    htexts, joinParts_append hne hqs]

/-- What is known of the text of a form that is not blank: as a part it is read back, and so it is on its own. The
text of a group in which only the first part is filled in is a word in the parentheses of the groups that it begins.
-/
structure Written (keyword : Text) (s : Shape) (v : Form) : Prop where
  part : ReadsBack keyword s (partText keyword v s)
  head : (partText keyword v s).head? ≠ some '*'
  back : (s.write keyword (s.read (s.write keyword v).value)).value = (s.write keyword v).value
  first : ∀ ss f fs, s = elem ss → v = .parts (f :: fs) → Form.areEmpty fs = true →
    ∃ w d, IsWord w ∧ HeadOf keyword w ss d ∧ (s.write keyword v).value = nestParens d w

theorem written_of_word (hs : s.isElem = false) (hw : IsWord w) (hstar : w.head? ≠ some '*')
    (hv : (s.write keyword v).value = w) (hwrite : (s.write keyword (.leaf w)).value = w) :
    Written keyword s v := by
  have htext : partText keyword v s = w := (partText_of_not_isElem hs).trans hv
  refine ⟨?_, ?_, ?_, ?_⟩
  · rw [htext]
    exact .word hs hw hwrite
  · rwa [htext]
  · rw [hv, value_write_leaf hw.trim, hwrite]
  · intro ss f fs he
    rw [he] at hs
    cases hs

theorem head_of_isSimpleName (h : Word.isSimpleName t = true) : t.head? ≠ some '*' := by
  cases t with
  | nil => simp
  | cons c cs =>
    simp only [Word.isSimpleName, Word.isName, Bool.and_eq_true] at h
    intro he
    cases he
    exact absurd h.2.1 (by decide)

theorem exists_headOf_omittedPart (hp : (elem ss).isProper = true) : ∃ d, HeadOf keyword omittedPart ss d := by
  have hall : ∀ s : Shape, s.isProper = true → ∀ ss, s = elem ss → ∃ d, HeadOf keyword omittedPart ss d := by
    intro s
    induction s using parts_induction with
    | simple => intro _ ss he; cases he
    | qual => intro _ ss he; cases he
    | elem ss ih =>
      intro hp ss' he
      cases he
      cases ss with
      | nil => cases hp
      | cons s ss =>
        rw [isProper, Bool.and_eq_true, areProper, Bool.and_eq_true] at hp
        cases s with
        | elem es =>
          obtain ⟨d, hd⟩ := ih (elem es) (List.mem_cons_self ..) hp.2.1 es rfl
          exact ⟨d + 1, .group hd⟩
        | simple l => exact ⟨0, .leaf rfl (value_write_leaf_plain rfl hp.2.1 (by decide))⟩
        | qual ls => exact ⟨0, .leaf rfl (value_write_leaf_plain rfl hp.2.1 (by decide))⟩
  exact hall _ hp ss rfl

/-- An omitted part is marked by a special value, which stands for parts and whole groups alike. -/
theorem readsBack_omittedPart (hp : s.isProper = true) : ReadsBack keyword s omittedPart := by
  have hplain : isPlain omittedPart = true := by decide
  have hword := isWord_of_isPlain hplain
  cases s with
  | elem ss =>
    obtain ⟨d, hd⟩ := exists_headOf_omittedPart hp
    exact .special hword ((hd.write_read hword).2.trans (nestParens_special rfl d)) rfl
  | simple l => exact .word rfl hword (value_write_leaf_plain rfl hp hplain)
  | qual ls => exact .word rfl hword (value_write_leaf_plain rfl hp hplain)

theorem written_simple (h : Word.isSimpleName t = true) : Written keyword (simple l) (.leaf t) := by
  have hplain := isPlain_of_isSimpleName h
  have hwrite : ((simple l).write keyword (.leaf t)).value = t := value_write_leaf_simple hplain
  exact written_of_word rfl (isWord_of_isPlain hplain) (head_of_isSimpleName h) hwrite hwrite

theorem written_qual (hl : ts.length = ls.length)
    (h : ∀ t ∈ ts, Text.isBlankText t = true ∨ Word.isSimpleName t = true)
    (hb : ts.Pairwise fun s t => Text.isBlankText s = true → Text.isBlankText t = true)
    (hn : (Form.parts (ts.map .leaf)).isEmpty = false) : Written keyword (qual ls) (.parts (ts.map .leaf)) := by
  have hsome := Form.areEmpty_map_leaf.mp hn
  obtain ⟨hv, hword, hwrite⟩ : ((qual ls).write keyword (.parts (ts.map .leaf))).value = _ ∧ _ ∧ _ :=
    value_write_qual_plain hl (fun t ht => (h t ht).imp_right isPlain_of_isSimpleName) hb hsome
  apply written_of_word rfl hword _ hv hwrite
  -- the text begins with the last of the names
  have hname : ∀ q ∈ ((ts.map unlessBlank).filter (!·.isEmpty)).reverse, q ≠ [] ∧ q.head? ≠ some '*' := by
    intro q hq
    obtain ⟨hmem, hne⟩ := mem_filter_nonempty.mp (List.mem_reverse.mp hq)
    obtain ⟨t, ht, rfl⟩ := List.mem_map.mp hmem
    refine ⟨hne, ?_⟩
    have ht' := (h t ht).resolve_left (mt unlessBlank_eq_nil_iff.mpr hne)
    rw [unlessBlank, isBlankText_of_isPlain (isPlain_of_isSimpleName ht')]
    exact head_of_isSimpleName ht'
  rw [joinQualified]
  cases hq : ((ts.map unlessBlank).filter (!·.isEmpty)).reverse with
  | nil => simp
  | cons q qs =>
    obtain ⟨hne, hhead⟩ := hname q (by rw [hq]; exact List.mem_cons_self ..)
    rw [head?_intercalate hne]
    exact hhead

/-! ## Groups -/

def BlankOrWritten (keyword : Text) (s : Shape) (v : Form) : Prop :=
  s.isProper = true ∧ (v.isEmpty = true ∨ Written keyword s v)

theorem BlankOrWritten.shown (h : BlankOrWritten keyword s v) :
    ReadsBack keyword s (shownPart (partText keyword v s)) := by
  obtain ⟨hp, hempty | hwritten⟩ := h
  · rw [partText_of_isEmpty hempty]
    exact readsBack_omittedPart hp
  · have hne := hwritten.part.isPiece.trim.2
    rw [shownPart, List.isEmpty_eq_false_iff.mpr hne]
    exact hwritten.part

theorem BlankOrWritten.ne_nil (h : BlankOrWritten keyword s v) (hn : v.isEmpty = false) :
    partText keyword v s ≠ [] := by
  obtain ⟨-, hempty | hwritten⟩ := h
  · rw [hn] at hempty
    cases hempty
  · exact hwritten.part.isPiece.trim.2

theorem forall₂_shown (h : List.Forall₂ (BlankOrWritten keyword) ss vs) :
    List.Forall₂ (fun s q => ReadsBack keyword s (shownPart q)) ss (List.zipWith (partText keyword) vs ss) := by
  induction h with
  | nil => exact .nil
  | cons hv _ ih => exact .cons hv.shown ih

theorem exists_partText (h : List.Forall₂ (BlankOrWritten keyword) ss vs) (hn : Form.areEmpty vs = false) :
    ∃ q ∈ List.zipWith (partText keyword) vs ss, q ≠ [] := by
  induction h with
  | nil => cases hn
  | @cons s v ss vs hv _ ih =>
    rw [List.zipWith_cons_cons]
    cases hempty : v.isEmpty with
    | false => exact ⟨_, List.mem_cons_self .., hv.ne_nil hempty⟩
    | true =>
      rw [Form.areEmpty, hempty, Bool.true_and] at hn
      obtain ⟨q, hq, hne⟩ := ih hn
      exact ⟨q, List.mem_cons_of_mem _ hq, hne⟩

theorem written_of_text (hself : SelfContained t) (hne : t ≠ []) (hparens : parenthesize t = inParens t)
    (hv : ((elem ss).write keyword v).value = t) (hback : ((elem ss).write keyword ((elem ss).read t)).value = t)
    (hfirst : ∀ f fs, v = .parts (f :: fs) → Form.areEmpty fs = true →
      ∃ w d, IsWord w ∧ HeadOf keyword w ss d ∧ t = nestParens d w) : Written keyword (elem ss) v := by
  have htext : partText keyword v (elem ss) = inParens t := by
    rw [partText_elem (by rw [hv]; exact hne), hv, hparens]
  refine ⟨?_, ?_, ?_, ?_⟩
  · rw [htext]
    exact .group hself hne hparens hback
  · rw [htext]
    simp [inParens]
  · rw [hv, hback]
  · intro ss' f fs he
    cases he
    rw [hv]
    exact hfirst f fs

theorem written_first {f : Form} {fs : List Form} (h : Written keyword s f) (hf : f.isEmpty = false)
    (hfs : Form.areEmpty fs = true)
    (hs : ∀ es, s = elem es → ∃ us, f = .parts us ∧ Form.areEmpty us.tail = true) :
    Written keyword (elem (s :: ss)) (.parts (f :: fs)) := by
  have hpiece := h.part.isPiece
  have hv : ((elem (s :: ss)).write keyword (.parts (f :: fs))).value = partText keyword f s :=
    value_write_first rfl hpiece.trim.2 hfs
  have hhead : ∃ w d, IsWord w ∧ HeadOf keyword w (s :: ss) d ∧ partText keyword f s = nestParens d w := by
    cases s with
    | elem es =>
      obtain ⟨us, rfl, hus⟩ := hs es rfl
      cases us with
      | nil => cases hf
      | cons u us =>
        obtain ⟨w, d, hw, hd, hwrite⟩ := h.first es u us rfl rfl hus
        refine ⟨w, d + 1, hw, .group hd, ?_⟩
        rw [partText_elem (by rw [hwrite]; exact (isPiece_nestParens hw d).trim.2), hwrite, nestParens]
    | simple l =>
      cases h.part with
      | word _ hw hwrite => exact ⟨_, 0, hw, .leaf rfl hwrite, rfl⟩
    | qual ls =>
      cases h.part with
      | word _ hw hwrite => exact ⟨_, 0, hw, .leaf rfl hwrite, rfl⟩
  apply written_of_text hpiece.selfContained hpiece.trim.2 (parenthesize_of_head h.head) hv
  · obtain ⟨w, d, hw, hd, htext⟩ := hhead
    rw [htext]
    exact (hd.write_read hw).1 d (Nat.le_refl d)
  · intro _ _ _ _
    exact hhead

theorem written_several {f : Form} {fs : List Form} (h : List.Forall₂ (BlankOrWritten keyword) (s :: ss) (f :: fs))
    (hfs : Form.areEmpty fs = false) : Written keyword (elem (s :: ss)) (.parts (f :: fs)) := by
  have hshown := forall₂_shown h
  obtain ⟨kept, k, hkept, hqs, -⟩ := exists_kept (List.zipWith (partText keyword) (f :: fs) (s :: ss))
  -- the part that is filled in is kept, and so are those in front of it
  obtain ⟨a, b, cs, hcs⟩ : ∃ a b cs, kept = a :: b :: cs := by
    obtain ⟨-, hrest⟩ := List.forall₂_cons.mp h
    obtain ⟨q, hq, hne⟩ := exists_partText hrest hfs
    rw [List.zipWith_cons_cons] at hqs
    match kept, hqs with
    | [], hqs =>
      have hmem : q ∈ List.replicate k ([] : Text) := by
        rw [← List.nil_append (List.replicate k []), ← hqs]
        exact List.mem_cons_of_mem _ hq
      exact absurd (List.eq_of_mem_replicate hmem) hne
    | [a], hqs =>
      rw [List.singleton_append, List.cons.injEq] at hqs
      rw [hqs.2] at hq
      exact absurd (List.eq_of_mem_replicate hq) hne
    | a :: b :: cs, _ => exact ⟨a, b, cs, rfl⟩
  have hreads : List.Forall₂ (ReadsBack keyword) ((s :: ss).take kept.length) (kept.map shownPart) := by
    rw [hqs] at hshown
    rw [List.forall₂_map_right_iff]
    exact List.forall₂_take_append _ _ _ hshown
  have hv : ((elem (s :: ss)).write keyword (.parts (f :: fs))).value = Text.unwords (kept.map shownPart) := by
    rw [value_write_parts h.length_eq.symm, joinParts, hkept]
    rfl
  have hpieces := isPiece_of_mem hreads
  have hdrop : dropEnclosing (Text.unwords (kept.map shownPart)) = Text.unwords (kept.map shownPart) := by
    rw [hcs, List.map_cons, List.map_cons] at hpieces ⊢
    exact dropEnclosing_pieces hpieces
  have hback : ((elem (_ ++ (s :: ss).drop kept.length)).write keyword _).value = _ :=
    write_read_pieces hreads hdrop
  rw [List.take_append_drop] at hback
  have hblank : (Text.unwords (kept.map shownPart)).contains ' ' = true := by
    rw [hcs]
    exact contains_unwords ..
  apply written_of_text (.unwords fun w hw => (hpieces w hw).selfContained) _
    (parenthesize_of_contains hblank) hv hback
  · intro f' fs' he hempty
    cases he
    rw [hfs] at hempty
    cases hempty
  · intro he
    rw [he] at hblank
    cases hblank

theorem forall₂_blankOrWritten (hp : areProper ss = true) (hv : List.Forall₂ Names ss vs)
    (hl : List.Forall₂ NoLoneGroup ss vs)
    (ih : ∀ s ∈ ss, ∀ v, s.isProper = true → s.Names v → s.NoLoneGroup v → v.isEmpty = false →
      Written keyword s v) :
    List.Forall₂ (BlankOrWritten keyword) ss vs := by
  induction hv with
  | nil => exact .nil
  | @cons s v ss vs hnames _ ihrest =>
    rw [areProper, Bool.and_eq_true] at hp
    obtain ⟨hlone, hrest⟩ := List.forall₂_cons.mp hl
    obtain ⟨ihs, ihss⟩ := List.forall_mem_cons.mp ih
    refine .cons ⟨hp.1, ?_⟩ (ihrest hp.2 hrest ihss)
    cases hempty : v.isEmpty with
    | true => exact .inl rfl
    | false => exact .inr (ihs v hp.1 hnames hlone hempty)

/-- By induction on the shape: the parts of a group are known before the group. -/
theorem written (hp : s.isProper = true) (hv : s.Names v) (hl : s.NoLoneGroup v) (hn : v.isEmpty = false) :
    Written keyword s v := by
  induction s using parts_induction generalizing v with
  | simple l =>
    cases hv with
    | simple h => exact written_simple (h.resolve_left (by simpa [Form.isEmpty] using hn))
  | qual ls =>
    cases hv with
    | qual hlen h hb => exact written_qual hlen h hb hn
  | elem ss ih =>
    rw [isProper, Bool.and_eq_true] at hp
    cases hv with
    | @elem _ vs hv =>
      cases hl with
      | part hs => cases hs
      | elem hlone hl =>
        have hparts := forall₂_blankOrWritten hp.2 hv hl fun s hs v hp hv hl => ih s hs hp hv hl
        cases hv with
        | nil => cases hn
        | @cons s f ss fs hf =>
          cases hfs : Form.areEmpty fs with
          | false => exact written_several hparts hfs
          | true =>
            have hfull : f.isEmpty = false := by
              rwa [Form.isEmpty, Form.areEmpty, hfs, Bool.and_true] at hn
            have hwritten := ((List.forall₂_cons.mp hparts).1.2).resolve_left (by simp [hfull])
            apply written_first hwritten hfull hfs
            intro es he
            rw [he] at hf
            cases hf with
            | @elem _ us _ => exact ⟨us, rfl, hlone es us fs (by rw [he]; rfl) rfl hfs⟩

/-- A form of names is written as a text that is read and written again as the same text, if no inner group with
several parts stands alone in the first place of a group. -/
theorem write_read_write (hp : s.isProper = true) (hv : s.Names v) (hl : s.NoLoneGroup v) (keyword : Text) :
    (s.write keyword (s.read (s.write keyword v).value)).value = (s.write keyword v).value := by
  cases hn : v.isEmpty with
  | true =>
    have hread : (s.read []).isEmpty = true := isEmpty_read rfl
    rw [value_write_of_isEmpty hn, value_write_of_isEmpty hread]
  | false => exact (written hp hv hl hn).back

end

/-- `((*N L/A) *N (C (D)))` without the outer parentheses. -/
theorem write_read_write_omitted :
    let leaf : Shape := .simple ⟨"NAME".toList, []⟩
    let name : Shape := .qual [⟨"NAME".toList, []⟩, ⟨"NAME".toList, []⟩]
    let s : Shape := .elem [.elem [leaf, name], leaf, .elem [leaf, .elem [leaf]]]
    let v : Form := .parts [.parts [.leaf [], .parts ([['A'], ['L']].map .leaf)], .leaf [],
      .parts [.leaf ['C'], .parts [.leaf ['D']]]]
    (s.write [] v).value = "(*N L/A) *N (C (D))".toList ∧
      (s.write [] (s.read "(*N L/A) *N (C (D))".toList)).value = "(*N L/A) *N (C (D))".toList := by
  intro leaf name s v
  have hwrite : (s.write [] v).value = "(*N L/A) *N (C (D))".toList := by decide +kernel
  have hblank : leaf.Names (.leaf []) := .simple (by decide)
  have hname : ∀ t, Word.isSimpleName t = true → leaf.Names (.leaf t) := fun _ h => .simple (.inr h)
  have hqual : name.Names (.parts ([['A'], ['L']].map .leaf)) := .qual rfl (by decide) (by decide)
  have hnames : s.Names v :=
    .elem (.cons (.elem (.cons hblank (.cons hqual .nil))) (.cons hblank (.cons
      (.elem (.cons (hname ['C'] (by decide)) (.cons (.elem (.cons (hname ['D'] (by decide)) .nil)) .nil))) .nil)))
  have hleaf : ∀ f, leaf.NoLoneGroup f := fun _ => .part rfl
  have hparts : ∀ ss vs, (∀ es, elem es ∉ ss.head?) → List.Forall₂ NoLoneGroup ss vs →
      (elem ss).NoLoneGroup (.parts vs) :=
    fun _ _ h hl => .elem (fun es _ _ he => absurd he (h es)) hl
  have hlone : s.NoLoneGroup v := by
    apply NoLoneGroup.elem
    · intro es us fs _ hv hfs
      cases hv
      cases hfs
    · apply List.Forall₂.cons (hparts _ _ (by simp [leaf]) (.cons (hleaf _) (.cons (.part rfl) .nil)))
      apply List.Forall₂.cons (hleaf _)
      apply List.Forall₂.cons _ .nil
      apply hparts _ _ (by simp [leaf])
      exact .cons (hleaf _) (.cons (hparts _ _ (by simp [leaf]) (.cons (hleaf _) .nil)) .nil)
  have hback := write_read_write (by decide) hnames hlone []
  rw [hwrite] at hback
  exact ⟨hwrite, hback⟩

/-- An inner group with two parts that stands alone loses its parentheses and only its first part gets them back. -/
theorem write_read_lone_group :
    let leaf : Shape := .simple ⟨"NAME".toList, []⟩
    let s : Shape := .elem [.elem [leaf, leaf], leaf]
    let v : Form := .parts [.parts ([['A'], ['B']].map .leaf), .leaf []]
    s.Names v ∧ (s.write [] v).value = "(A B)".toList ∧
      (s.write [] (s.read "(A B)".toList)).value = "(A) B".toList := by
  intro leaf s v
  refine ⟨?_, ?_, ?_⟩
  · have hname : ∀ t, Word.isSimpleName t = true → leaf.Names (.leaf t) := fun _ h => .simple (.inr h)
    exact .elem (.cons (.elem (.cons (hname _ (by decide)) (.cons (hname _ (by decide)) .nil)))
      (.cons (.simple (by decide)) .nil))
  · decide +kernel
  · decide +kernel

end Shape

end ControlLanguage
