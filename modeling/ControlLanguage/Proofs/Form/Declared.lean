import ControlLanguage.Proofs.Form.Leaves

/-!
# The parts that a shape has

A form may have more parts than its shape. What is written of it are the
leaves in the parts that the shape has, so the text is empty if these are
blank: `value_write_eq_nil_iff`.
-/

namespace ControlLanguage

namespace Shape

mutual

/-- The leaves of a form in the parts that the shape has. -/
def declared (v : Form) : Shape → List Text
  | simple _ => v.leaves
  | qual ls => Form.leavesOf ((v.partsUnder (qual ls)).take ls.length)
  | elem ss => declaredParts (v.partsUnder (elem ss)) ss

def declaredParts (vs : List Form) : List Shape → List Text
  | [] => []
  | s :: ss =>
    match vs with
    | [] => []
    | v :: vs => declared v s ++ declaredParts vs ss

end

/-- Whether some part that the shape has is filled in. -/
def isFilled (s : Shape) (v : Form) : Bool := (s.declared v).any (!Text.isBlankText ·)

end Shape

/-! ## Texts of forms -/

namespace Form

theorem flatTexts_eq (fs : List Form) : flatTexts fs = (fs.filter (!·.isEmpty)).map flatText := by
  induction fs with
  | nil => rfl
  | cons f fs ih =>
    rw [flatTexts]
    cases hf : f.isEmpty with
    | true => rw [if_pos rfl, ih, List.filter_cons_of_neg (by simp [hf])]
    | false => rw [if_neg Bool.false_ne_true, ih, List.filter_cons_of_pos (by simp [hf]), List.map_cons]

theorem isBlankText_flatText_iff : ∀ f : Form, Text.isBlankText f.flatText = true ↔ f.isEmpty = true
  | leaf _ => Iff.rfl
  | parts items => by
    rw [isEmpty, areEmpty_iff, flatText, flatTexts_eq, Text.isBlankText_unwords, List.forall_mem_map]
    constructor
    · intro h f hf
      by_contra hn
      exact hn ((isBlankText_flatText_iff f).mp (h f (List.mem_filter.mpr ⟨hf, by simpa using hn⟩)))
    · intro h f hf
      obtain ⟨hmem, hn⟩ := List.mem_filter.mp hf
      simp [h f hmem] at hn

end Form

section
variable {texts : List Text}

theorem joinQualified_eq_nil_iff : joinQualified texts = [] ↔ ∀ q ∈ texts, q = [] := by
  constructor
  · intro h
    by_contra hn
    simp only [not_forall] at hn
    obtain ⟨q, hq, hne⟩ := hn
    have hmem : q ∈ (texts.filter (!·.isEmpty)).reverse := List.mem_reverse.mpr (mem_filter_nonempty.mpr ⟨hq, hne⟩)
    obtain ⟨w, ws, hw⟩ := List.exists_cons_of_ne_nil (List.ne_nil_of_mem hmem)
    have hword : w ≠ [] := by
      have : w ∈ (texts.filter (!·.isEmpty)).reverse := by rw [hw]; exact List.mem_cons_self ..
      exact (mem_filter_nonempty.mp (List.mem_reverse.mp this)).2
    rw [joinQualified, hw] at h
    exact intercalate_ne_nil hword '/' ws h
  · intro h
    rw [joinQualified, List.filter_eq_nil_iff.mpr]
    · rfl
    · intro q hq
      simp [h q hq]

theorem joinParts_eq_nil_iff : joinParts texts = [] ↔ ∀ q ∈ texts, q = [] := by
  constructor
  · intro h
    by_contra hn
    simp only [not_forall] at hn
    obtain ⟨q, hq, hne⟩ := hn
    obtain ⟨ws, hws, hmem, hjoin, -⟩ := fitTexts_shownPart ⟨q, hq, hne⟩
    obtain ⟨w, ws, rfl⟩ := List.exists_cons_of_ne_nil hws
    obtain ⟨p, -, rfl⟩ := hmem w (List.mem_cons_self ..)
    rw [h] at hjoin
    refine unwords_ne_nil ?_ hjoin.symm
    rw [shownPart]
    split
    · decide
    · next he => simpa using he
  · exact Shape.joinParts_of_empty

end

namespace Shape

section
variable {keyword : Text} {v : Form} {s : Shape} {ss : List Shape} {ls : List Leaf}

theorem isFilled_eq_false : s.isFilled v = false ↔ ∀ t ∈ s.declared v, Text.isBlankText t = true := by
  rw [isFilled, List.any_eq_false]
  simp

theorem partText_eq_nil_iff : partText keyword v s = [] ↔ (s.write keyword v).value = [] := by
  rw [partText]
  split
  · next h =>
    rw [Bool.and_eq_true, Bool.not_eq_true', List.isEmpty_eq_false_iff] at h
    rcases parenthesize_cases (s.write keyword v).value with ⟨hp, -⟩ | hp
    · rw [hp]
    · rw [hp]
      exact iff_of_false (by simp [inParens]) h.2
  · rfl

theorem declaredParts_map_simple (vs : List Form) (ls : List Leaf) :
    declaredParts vs (ls.map simple) = Form.leavesOf (vs.take ls.length) := by
  induction ls generalizing vs with
  | nil => rw [List.map_nil, declaredParts, List.length_nil, List.take_zero]; rfl
  | cons l ls ih =>
    cases vs with
    | nil => rw [List.map_cons, declaredParts, List.take_nil]; rfl
    | cons v vs =>
      rw [List.map_cons, declaredParts, ih, declared, List.length_cons, List.take_succ_cons, Form.leavesOf]

theorem value_write_qual_eq : ((qual ls).write keyword v).value =
    joinQualified (List.zipWith (partText keyword) (fitParts ls.length (v.partsUnder (qual ls)))
      (ls.map simple)) := by
  have hpart : ∀ (f : Form) (l : Leaf), partText keyword f (simple l) = l.write f :=
    fun f l => (partText_of_not_isElem rfl).trans (value_write_simple.trans (Leaf.settle_eq l _))
  rw [write, Logged.value_bind, value_adjustParts_eq, List.zipWith_map_right, List.zipWith_comm]
  simp only [hpart]
  rfl

theorem partTexts_eq_nil_iff (h : ∀ s ∈ ss, ∀ v, (s.write keyword v).value = [] ↔
    ∀ t ∈ s.declared v, Text.isBlankText t = true) (vs : List Form) :
    (∀ q ∈ List.zipWith (partText keyword) (fitParts ss.length vs) ss, q = []) ↔
      ∀ t ∈ declaredParts vs ss, Text.isBlankText t = true := by
  induction ss generalizing vs with
  | nil => simp [declaredParts]
  | cons s ss ih =>
    obtain ⟨hs, hss⟩ := List.forall_mem_cons.mp h
    cases vs with
    | nil =>
      have hblank : Form.areEmpty (fitParts (s :: ss).length []) = true := areEmpty_fitParts rfl _
      refine iff_of_true (partTexts_of_empty hblank) ?_
      rw [declaredParts]
      simp
    | cons v vs =>
      have hfit : fitParts (s :: ss).length (v :: vs) = v :: fitParts ss.length vs := by simp [fitParts]
      rw [hfit, List.zipWith_cons_cons, List.forall_mem_cons, partText_eq_nil_iff, hs, ih hss, declaredParts,
        List.forall_mem_append]

theorem value_write_simple_eq_nil_iff (l : Leaf) (v : Form) :
    ((simple l).write keyword v).value = [] ↔ ∀ t ∈ (simple l).declared v, Text.isBlankText t = true := by
  rw [value_write_simple, Leaf.settle_eq_nil_iff, Form.isBlankText_flatText_iff, Form.isEmpty_iff_leaves, declared]

theorem value_write_eq_nil_iff (s : Shape) (v : Form) :
    (s.write keyword v).value = [] ↔ ∀ t ∈ s.declared v, Text.isBlankText t = true := by
  induction s using parts_induction generalizing v with
  | simple l => exact value_write_simple_eq_nil_iff l v
  | qual ls =>
    have hsimple : ∀ s ∈ ls.map simple, ∀ v, (s.write keyword v).value = [] ↔
        ∀ t ∈ s.declared v, Text.isBlankText t = true := by
      intro s hs v
      obtain ⟨l, -, rfl⟩ := List.mem_map.mp hs
      exact value_write_simple_eq_nil_iff l v
    have hparts := partTexts_eq_nil_iff hsimple (v.partsUnder (qual ls))
    rw [List.length_map, declaredParts_map_simple] at hparts
    rw [value_write_qual_eq, joinQualified_eq_nil_iff, hparts, declared]
  | elem ss ih => rw [value_write_group, joinParts_eq_nil_iff, partTexts_eq_nil_iff ih, declared]

theorem value_write_eq_nil_iff_isFilled (keyword : Text) (s : Shape) (v : Form) :
    (s.write keyword v).value = [] ↔ s.isFilled v = false := by
  rw [value_write_eq_nil_iff, isFilled_eq_false]

theorem isFilled_of_isEmpty (h : v.isEmpty = true) : s.isFilled v = false :=
  (value_write_eq_nil_iff_isFilled [] s v).mp (value_write_of_isEmpty h)

end

end Shape

end ControlLanguage
