import ControlLanguage.Proofs.Form.Settle

/-!
# Values written and read

The text of a value that fits its schema consists of words, side by side or
each in parentheses, and it is read as the settled value.
-/

namespace ControlLanguage

/-! ## Instances -/

section
variable {keyword : Text} {v : Form} {ts : List Text} {l : Leaf} {ls : List Leaf} {shape : Shape}

theorem Form.areEmpty_map_leaf : Form.areEmpty (ts.map .leaf) = false ↔ ∃ t ∈ ts, Text.isBlankText t = false := by
  induction ts with
  | nil => simp [Form.areEmpty]
  | cons t ts ih => rw [List.map_cons, Form.areEmpty, Bool.and_eq_false_iff, ih, Form.isEmpty]; simp

theorem Form.map_flatText (ts : List Text) : (ts.map Form.leaf).map Form.flatText = ts := by
  rw [List.map_map]
  exact List.map_id ts

theorem value_adjustParts {n : Nat} {parts : List Form} (h : parts.length = n) :
    (adjustParts keyword n parts).value = parts := by
  subst h
  rw [adjustParts, if_neg (by simp)]
  simp

namespace Shape

theorem value_write_simple : ((simple l).write keyword v).value = l.settle v.flatText := by
  rw [Shape.write]; rfl

theorem value_write_qual (h : List.Forall₂ Leaf.Takes ls ts) :
    ((qual ls).write keyword (.parts (ts.map .leaf))).value = joinQualified (List.zipWith Leaf.settle ls ts) := by
  have hwrite : List.zipWith Leaf.write ls (ts.map .leaf) = List.zipWith Leaf.settle ls ts := by
    rw [List.zipWith_map_right]
    congr 1
    funext l t
    exact (Leaf.settle_eq l t).symm
  rw [Shape.write, Logged.value_bind, Form.partsUnder,
    value_adjustParts (by rw [List.length_map, h.length_eq]), Logged.value_pure, hwrite]

theorem value_writeParts (h : List.Forall₂ Leaf.Takes ls ts) :
    (Shape.writeParts keyword (ts.map .leaf) (ls.map simple)).value = List.zipWith Leaf.settle ls ts := by
  induction h with
  | nil => rw [List.map_nil, List.map_nil, writeParts]; rfl
  | cons _ _ ih =>
    rw [List.map_cons, List.map_cons, writeParts]
    simp only [Logged.value_bind, value_write_simple, ih]
    rfl

theorem value_write_elem (h : List.Forall₂ Leaf.Takes ls ts) :
    ((elem (ls.map simple)).write keyword (.parts (ts.map .leaf))).value =
      joinParts (List.zipWith Leaf.settle ls ts) := by
  rw [Shape.write, Logged.value_bind, Form.partsUnder,
    value_adjustParts (by rw [List.length_map, List.length_map, h.length_eq]), Logged.value_bind,
    value_writeParts h]
  rfl

theorem leaves_map_simple (ls : List Leaf) : leaves (ls.map simple) = ls := by
  rw [leaves, List.filterMap_map]
  exact List.filterMap_some

theorem isFlat_map_simple (ls : List Leaf) : isFlat (ls.map simple) = true := by
  rw [isFlat, List.all_map, List.all_eq_true]
  intro l _; rfl

theorem Fits.exists_word (h : shape.Fits v) (hn : v.isEmpty = false) (hs : shape.isElem = false) (keyword : Text) :
    ∃ w, IsWord w ∧ (shape.write keyword v).value = w ∧ shape.read w = shape.settle v ∧
      shape.read (shape.wrapInstance w) = shape.settle v := by
  cases h with
  | @simple l t ht =>
    have hne : l.settle t ≠ [] := mt Leaf.settle_eq_nil_iff.mp (Bool.eq_false_iff.mp hn)
    have hw := isWord_of_isPart (ht.isPart hne) hne
    have hread : (Shape.simple l).read (l.settle t) = (Shape.simple l).settle (.leaf t) := by
      rw [Shape.read, hw.trim]; rfl
    exact ⟨_, hw, value_write_simple, hread, hread⟩
  | @qual ls ts hts hb =>
    have hparts := areParts_settle hts
    have hsome := exists_settle_ne_nil hts (Form.areEmpty_map_leaf.mp hn)
    have hw := isWord_joinQualified hparts hsome
    have hread : ∀ t, dropEnclosing t = joinQualified (List.zipWith Leaf.settle ls ts) →
        (Shape.qual ls).read t = (Shape.qual ls).settle (.parts (ts.map .leaf)) := by
      intro t ht
      have := qualifiedParts_joinQualified hparts hsome (pairwise_settle hts hb) ht
      rw [length_settle hts] at this
      rw [Shape.read, this, settle, Form.leafTexts, Form.map_flatText]
    exact ⟨_, hw, value_write_qual hts, hread _ (dropEnclosing_word hw),
      hread _ (dropEnclosing_inParens (.of_unbroken hw.unbroken) hw.trim)⟩
  | elem => cases hs

theorem read_flat {ss : List Shape} {ws : List Text} (hf : isFlat ss = true) (h : ∀ w ∈ ws, IsWord w) :
    (elem ss).read (Text.unwords ws) = .parts ((fitTexts ss.length ws).map .leaf) := by
  rw [read]
  simp only [hf, if_true]
  cases ws with
  | nil => rfl
  | cons w ws => rw [dropEnclosing_unwords (List.cons_ne_nil w ws) h, pieces_unwords (List.cons_ne_nil w ws) h]

theorem read_words {ws : List Text} (h : ∀ w ∈ ws, IsWord w) :
    (elem (ls.map simple)).read (Text.unwords ws) = .parts ((fitTexts ls.length ws).map .leaf) := by
  rw [read_flat (isFlat_map_simple ls) h, List.length_map]

theorem Fits.exists_words (h : shape.Fits v) (hn : v.isEmpty = false) (keyword : Text) : ∃ ws, ws ≠ [] ∧
    (∀ w ∈ ws, IsWord w) ∧ (shape.write keyword v).value = Text.unwords ws ∧
      shape.read (Text.unwords ws) = shape.settle v := by
  cases hs : shape.isElem with
  | false =>
    obtain ⟨w, hw, hwrite, hread, -⟩ := h.exists_word hn hs keyword
    refine ⟨[w], by simp, by simpa using hw, ?_, ?_⟩
    · rw [unwords_singleton, hwrite]
    · rw [unwords_singleton, hread]
  | true =>
    cases h with
    | simple => cases hs
    | qual => cases hs
    | @elem ls ts hts =>
      have hparts := areParts_settle hts
      obtain ⟨ws, hne, hmem, hjoin, hfit⟩ :=
        fitTexts_shownPart (exists_settle_ne_nil hts (Form.areEmpty_map_leaf.mp hn))
      have hw : ∀ w ∈ ws, IsWord w := by
        intro w hw
        obtain ⟨q, hq, rfl⟩ := hmem w hw
        rw [shownPart]
        split
        · exact isWord_of_isPart (by decide) (by decide)
        · next he =>
          have hne : q ≠ [] := by simpa using he
          exact isWord_of_isPart (hparts q hq hne) hne
      refine ⟨ws, hne, hw, (value_write_elem hts).trans hjoin, ?_⟩
      rw [length_settle hts] at hfit
      rw [read_words hw, hfit, settle, leaves_map_simple, Form.leafTexts, Form.map_flatText]

theorem value_writeInstances (keyword : Text) (shape : Shape) (vs : List Form) :
    (shape.writeInstances keyword vs).value =
      (vs.filter (!·.isEmpty)).map fun v => shape.wrapInstance (shape.write keyword v).value := by
  induction vs with
  | nil => rfl
  | cons v vs ih =>
    rw [writeInstances]
    cases hv : v.isEmpty with
    | true =>
      rw [if_pos rfl, ih, List.filter_cons_of_neg (by simp [hv])]
    | false =>
      rw [if_neg Bool.false_ne_true, List.filter_cons_of_pos (by simp [hv]), List.map_cons, ← ih]
      rfl

end Shape

/-! ## Values -/

/-- The texts that values are written as: words side by side, or each in parentheses. -/
inductive IsValueText : Text → Prop
  | words {ws} : ws ≠ [] → (∀ w ∈ ws, IsWord w) → IsValueText (Text.unwords ws)
  | groups {ws} : ws ≠ [] → (∀ w ∈ ws, IsWord w) → IsValueText (Text.unwords (ws.map inParens))

theorem IsValueText.ne_nil {t : Text} (h : IsValueText t) : t ≠ [] := by
  have hjoin : ∀ ws : List Text, ws ≠ [] → (∀ w ∈ ws, w ≠ []) → Text.unwords ws ≠ [] := by
    intro ws hn hw
    obtain ⟨w, ws, rfl⟩ := List.exists_cons_of_ne_nil hn
    exact unwords_ne_nil (hw w (List.mem_cons_self ..))
  cases h with
  | words hn hw => exact hjoin _ hn fun w h => (hw w h).ne_nil
  | groups hn => exact hjoin _ (by simpa using hn) (by simp [inParens])

theorem isValueText_wrapInstance {ws : List Text} (hs : shape.isElem = false) (hn : ws ≠ [])
    (h : ∀ w ∈ ws, IsWord w) : IsValueText (Text.unwords (ws.map shape.wrapInstance)) ∧
      pieces (Text.unwords (ws.map shape.wrapInstance)) true = ws.map shape.wrapInstance := by
  cases shape with
  | simple l =>
    rw [show ws.map (Shape.simple l).wrapInstance = ws from List.map_id ws]
    exact ⟨.words hn h, pieces_unwords hn h⟩
  | qual ls =>
    refine ⟨.groups hn h, pieces_unwords_of_isPiece fun t ht => ?_⟩
    obtain ⟨w, hw, rfl⟩ := List.mem_map.mp ht
    exact .group (.of_unbroken (h w hw).unbroken)
  | elem => cases hs

theorem Form.areEmpty_eq_false {vs : List Form} (h : Form.areEmpty vs = false) : vs.filter (!·.isEmpty) ≠ [] := by
  induction vs with
  | nil => cases h
  | cons v vs ih =>
    cases hv : v.isEmpty with
    | true =>
      rw [List.filter_cons_of_neg (by simp [hv])]
      rw [Form.areEmpty, hv, Bool.true_and] at h
      exact ih h
    | false =>
      rw [List.filter_cons_of_pos (by simp [hv])]
      simp

/-- The text of a value that fits its schema is read as the settled value. -/
theorem Schema.Fits.exists_text {s : Schema} (h : s.Fits v) (hn : v.isEmpty = false) :
    ∃ t, (s.write v).run.value = .ok t ∧ IsValueText t ∧ s.read t = .ok (s.settle v) := by
  cases h with
  | @single shape _ hshape hrep hv =>
    obtain ⟨ws, hne, hw, hwrite, hread⟩ := hv.exists_words hn s.keyword
    refine ⟨Text.unwords ws, ?_, .words hne hw, ?_⟩
    · simp only [Schema.write, hshape, hrep, Bool.false_eq_true, if_false]
      exact congrArg Except.ok hwrite
    · rw [Schema.read, Schema.settle, hshape]
      simp only [hrep, Bool.false_eq_true, if_false, hread]
  | @repeated shape vs hshape hrep hs hvs =>
    have hword : ∀ v ∈ vs.filter (!·.isEmpty), ∃ w, IsWord w ∧ (shape.write s.keyword v).value = w ∧
        shape.read w = shape.settle v ∧ shape.read (shape.wrapInstance w) = shape.settle v := by
      intro v hv
      obtain ⟨hmem, hne⟩ := List.mem_filter.mp hv
      have hne : v.isEmpty = false := by simpa using hne
      exact (hvs v hmem hne).exists_word hne hs s.keyword
    have htexts := Shape.value_writeInstances s.keyword shape vs
    have hwords : ∀ w ∈ (vs.filter (!·.isEmpty)).map fun v => (shape.write s.keyword v).value, IsWord w := by
      intro w hw
      obtain ⟨v, hv, rfl⟩ := List.mem_map.mp hw
      obtain ⟨w, hw, rfl, -⟩ := hword v hv
      exact hw
    obtain ⟨hvalue, hpieces⟩ :=
      isValueText_wrapInstance hs (mt List.map_eq_nil_iff.mp (Form.areEmpty_eq_false hn)) hwords
    rw [List.map_map] at hvalue hpieces
    refine ⟨_, ?_, hvalue, ?_⟩
    · simp only [Schema.write, hshape, hrep, if_true]
      exact congrArg (fun ts => Except.ok (Text.unwords ts)) htexts
    · have hinst : ∀ t, s.instances t = pieces t true := by
        intro t
        rw [Schema.instances, hshape]
        cases shape with
        | elem => cases hs
        | _ => rfl
      rw [Schema.read, Schema.settle, hshape]
      simp only [hrep, if_true, hinst, hpieces, Form.instances, List.map_map]
      congr 2
      refine List.map_congr_left fun v hv => ?_
      obtain ⟨w, -, rfl, -, hread⟩ := hword v hv
      exact hread

end

end ControlLanguage
