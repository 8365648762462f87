import ControlLanguage.Proofs.Form.Declared
import ControlLanguage.Proofs.Form.RoundTrip

/-!
# Parameters that are left out

A parameter of which no part is filled in is written as nothing and does not
reach the command. The exception are instances of a repeated parameter that
are filled in only in parts that their shape does not have: each of them
leaves an empty pair of parentheses behind. `write_eq_nil_iff` says when that
happens.
-/

namespace ControlLanguage

/-! ## Texts side by side -/

section
variable {α : Type} {ts us : List Text}

theorem unwords_eq_nil_iff (h : ∀ t ∈ ts, t ≠ []) : Text.unwords ts = [] ↔ ts = [] := by
  cases ts with
  | nil => simp [Text.unwords]
  | cons t ts => exact iff_of_false (unwords_ne_nil (h t (List.mem_cons_self ..))) (List.cons_ne_nil t ts)

theorem length_flatMap_of_sublist (h : us.Sublist ts) :
    (us.flatMap (' ' :: ·)).length + (ts.length - us.length) ≤ (ts.flatMap (' ' :: ·)).length := by
  induction h with
  | slnil => exact Nat.le_refl _
  | cons t h ih =>
    simp only [List.flatMap_cons, List.length_append, List.length_cons]
    omega
  | cons_cons t h ih =>
    simp only [List.flatMap_cons, List.length_append, List.length_cons]
    omega

theorem unwords_of_sublist (h : us.Sublist ts) (hn : ∀ t ∈ ts, t ≠ []) (he : Text.unwords us = Text.unwords ts) :
    us = ts := by
  cases us with
  | nil => exact ((unwords_eq_nil_iff hn).mp he.symm).symm
  | cons u us =>
    cases ts with
    | nil => cases h
    | cons t ts =>
      have hlen := length_flatMap_of_sublist h
      rw [← cons_unwords, ← cons_unwords, he] at hlen
      exact h.eq_of_length_le (by omega)

theorem unwords_map_filter_iff {g : α → Text} {p : α → Bool} {as : List α} (hg : ∀ a ∈ as, g a ≠ []) :
    Text.unwords ((as.filter p).map g) = Text.unwords (as.map g) ↔ ∀ a ∈ as, p a = true := by
  rw [← List.filter_eq_self]
  constructor
  · intro h
    have hmap := unwords_of_sublist (List.filter_sublist.map g) (List.forall_mem_map.mpr hg) h
    have hlen := congrArg List.length hmap
    rw [List.length_map, List.length_map] at hlen
    exact List.filter_sublist.eq_of_length hlen
  · intro h
    rw [h]

end

/-! ## Parameters -/

namespace Schema

def items (s : Schema) (shape : Shape) : Form → List Form
  | .parts items => items
  | .leaf t => (s.instances t).map (shape.read ·)

def isFilled (s : Schema) (shape : Shape) (v : Form) : Bool :=
  if s.isRepeated then (s.items shape v).any (shape.isFilled ·) else shape.isFilled v

/-- Whether an instance of a repeated parameter is filled in only in parts that its shape does not have. -/
def hasSurplusInstance (s : Schema) (shape : Shape) (v : Form) : Bool :=
  s.isRepeated && (s.items shape v).any fun i => !i.isEmpty && !shape.isFilled i

section
variable {s : Schema} {shape : Shape} {i v : Form}

theorem value_write_single (hs : s.shape = some shape) (hr : s.isRepeated = false) :
    (s.write v).run.value = .ok (shape.write s.keyword v).value := by
  simp only [write, hs, hr, Bool.false_eq_true, if_false]
  rfl

theorem value_write_repeated (hs : s.shape = some shape) (hr : s.isRepeated = true) : (s.write v).run.value =
    .ok (Text.unwords (((s.items shape v).filter (!·.isEmpty)).map fun i =>
      shape.wrapInstance (shape.write s.keyword i).value)) := by
  rw [← Shape.value_writeInstances]
  simp only [write, hs, hr, if_true]
  rfl

theorem wrapInstance_ne_nil (h : i.isEmpty = false) (keyword : Text) :
    shape.wrapInstance (shape.write keyword i).value ≠ [] := by
  cases shape with
  | simple l =>
    rw [Shape.wrapInstance, Shape.value_write_simple, Ne, Leaf.settle_eq_nil_iff, Form.isBlankText_flatText_iff, h]
    exact Bool.false_ne_true
  | qual ls => exact List.cons_ne_nil _ _
  | elem ss =>
    rw [Shape.wrapInstance]
    rcases parenthesize_cases ((Shape.elem ss).write keyword i).value with ⟨hp, hstar⟩ | hp
    · rw [hp]
      intro he
      rw [he] at hstar; cases hstar
    · rw [hp]
      exact List.cons_ne_nil _ _

theorem hasSurplusInstance_eq_false (hr : s.isRepeated = true) : s.hasSurplusInstance shape v = false ↔
    ∀ i ∈ (s.items shape v).filter (!·.isEmpty), shape.isFilled i = true := by
  rw [hasSurplusInstance, hr, Bool.true_and, List.any_eq_false]
  simp only [List.mem_filter, Bool.and_eq_true, Bool.not_eq_true', not_and, Bool.not_eq_false]
  exact forall_congr' fun i => and_imp.symm

theorem filter_isEmpty_eq_nil_iff (hr : s.isRepeated = true) : (s.items shape v).filter (!·.isEmpty) = [] ↔
    s.isFilled shape v = false ∧ s.hasSurplusInstance shape v = false := by
  rw [isFilled, if_pos hr, hasSurplusInstance, hr, Bool.true_and, List.filter_eq_nil_iff, List.any_eq_false,
    List.any_eq_false, ← forall₂_and]
  refine forall₂_congr fun i _ => ?_
  cases he : i.isEmpty with
  | true => simp [Shape.isFilled_of_isEmpty he]
  | false => simp

end

end Schema

/-! ## Commands -/

namespace CommandForm

section
variable {s : Schema} {shape : Shape} {v : Form} {values : Entries Form} {defaults : Entries Text}
    {touched : List Text}
  {pre post : List Schema}

theorem write_plainValue (hs : s.shape = some shape) (h : (s.write v).run.value = .ok []) :
    (s.write (plainValue s v)).run.value = .ok [] := by
  unfold plainValue
  split
  · next u =>
    split
    · next hsimple =>
      rw [Bool.and_eq_true, Bool.not_eq_true'] at hsimple
      rw [Schema.value_write_single hs hsimple.2, Except.ok.injEq, Shape.value_write_eq_nil_iff] at h ⊢
      cases shape with
      | simple l => simpa [Shape.declared, Form.leaves, Form.leavesOf] using h
      | _ => simp [Schema.isSimple, hs, Shape.isSimple] at hsimple
    · exact h
  · exact h

theorem parameter?_of_nil (hs : s.shape = some shape) (hv : values.get? s.keyword = some v)
    (h : (s.write v).run.value = .ok []) : (parameter? values defaults touched s).run.value = .ok none := by
  cases he : v.isEmpty with
  | true =>
    apply parameter?_blank
    rw [hv, Option.filter_some, if_neg (by simp [he])]
  | false =>
    have hfilter : (values.get? s.keyword).filter (!·.isEmpty) = some v := by
      rw [hv, Option.filter_some, if_pos (by simp [he])]
    simp only [parameter?, hfilter]
    rw [Logged.value_run_bind (write_plainValue hs h)]
    rfl

theorem parameters_of_none (h : (parameter? values defaults touched s).run.value = .ok none) :
    (parameters values defaults touched (pre ++ s :: post)).run.value =
      (parameters values defaults touched (pre ++ post)).run.value := by
  induction pre with
  | nil =>
    rw [List.nil_append, List.nil_append, parameters, Logged.value_run_bind h]
    cases hpost : (parameters values defaults touched post).run.value with
    | error =>
      rw [ExceptT.run_bind, Logged.value_bind, hpost]; rfl
    | ok texts =>
      rw [Logged.value_run_bind hpost]; rfl
  | cons p pre ih =>
    rw [List.cons_append, List.cons_append, parameters, parameters]
    exact Logged.value_run_bind_congr rfl fun first => Logged.value_run_bind_congr ih fun _ => rfl

end

end CommandForm

/-- A parameter is written as nothing, and left out of every command, if no part that its shape has is filled in. Of
a repeated parameter only the instances count that have such a part. Both fail exactly for the instances that are
filled in only where their shape has no part. -/
theorem Schema.write_eq_nil_iff {s : Schema} {shape : Shape} (hs : s.shape = some shape) (v : Form) :
    ∃ t, (s.write v).run.value = .ok t ∧
      (t = [] ↔ s.isFilled shape v = false ∧ s.hasSurplusInstance shape v = false) ∧
      (s.isRepeated = true → ((s.write (.parts ((s.items shape v).filter (shape.isFilled ·)))).run.value = .ok t ↔
        s.hasSurplusInstance shape v = false)) ∧
      (t = [] → ∀ (f : CommandForm) (pre post : List Schema), f.values.upperKeys.get? s.keyword = some v →
        (f.write (pre ++ s :: post)).run.value = (f.write (pre ++ post)).run.value) := by
  have homit : (s.write v).run.value = .ok [] → ∀ (f : CommandForm) (pre post : List Schema),
      f.values.upperKeys.get? s.keyword = some v →
        (f.write (pre ++ s :: post)).run.value = (f.write (pre ++ post)).run.value := by
    intro h f pre post hv
    have hnone := fun touched => @CommandForm.parameter?_of_nil s shape v f.values.upperKeys f.defaults.upperKeys
      touched
      hs hv h
    exact Logged.value_run_bind_congr (CommandForm.parameters_of_none (hnone _)) fun _ => rfl
  cases hr : s.isRepeated with
  | false =>
    have hwrite := value_write_single (v := v) hs hr
    refine ⟨_, hwrite, ?_, fun h => (Bool.false_ne_true h).elim, fun he => homit (he ▸ hwrite)⟩
    rw [Shape.value_write_eq_nil_iff_isFilled, isFilled, hasSurplusInstance, hr]
    simp
  | true =>
    have hwrite := value_write_repeated (v := v) hs hr
    have htexts : ∀ i ∈ (s.items shape v).filter (!·.isEmpty),
        shape.wrapInstance (shape.write s.keyword i).value ≠ [] :=
      fun i hi => wrapInstance_ne_nil (by simpa using (List.mem_filter.mp hi).2) s.keyword
    refine ⟨_, hwrite, ?_, fun _ => ?_, fun he => homit (he ▸ hwrite)⟩
    · rw [unwords_eq_nil_iff (List.forall_mem_map.mpr htexts), List.map_eq_nil_iff, filter_isEmpty_eq_nil_iff hr]
    · rw [value_write_repeated hs hr, Except.ok.injEq, items, List.filter_comm, unwords_map_filter_iff htexts,
        hasSurplusInstance_eq_false hr]

theorem Schema.write_eq_nil_iff_lists :
    let leaf : Leaf := ⟨[], []⟩
    let s : Schema := ⟨"K".toList, some (.qual [leaf, leaf]), 2, .null, by decide, by decide, by
      intro s hs; cases hs; rfl⟩
    let blank : Form := .parts [.parts [.leaf [], .leaf [' ']], .parts []]
    let filled : Form := .parts [.parts [.leaf [], .leaf [' ']], .parts [.leaf "A".toList]]
    (s.write blank).run.value = .ok [] ∧ ∃ t, t ≠ [] ∧ (s.write filled).run.value = .ok t := by
  intro leaf s blank filled
  obtain ⟨t, hblank, hnil, -⟩ := @write_eq_nil_iff s (.qual [leaf, leaf]) rfl blank
  obtain ⟨u, hfilled, hne, -⟩ := @write_eq_nil_iff s (.qual [leaf, leaf]) rfl filled
  rw [hnil.mpr (by decide)] at hblank
  exact ⟨hblank, u, mt hne.mp (by decide), hfilled⟩

/-- An instance with a third part only, where a name has two, is written as an empty pair of parentheses. -/
theorem Schema.write_surplus_instance : ¬∀ (s : Schema) (shape : Shape) (v : Form), s.shape = some shape →
    s.isFilled shape v = false → (s.write v).run.value = .ok [] := by
  intro h
  let leaf : Leaf := ⟨[], []⟩
  let s : Schema := ⟨"K".toList, some (.qual [leaf, leaf]), 2, .null, by decide, by decide, by
    intro s hs; cases hs; rfl⟩
  let v : Form := .parts [.parts [.leaf [], .leaf [], .leaf "X".toList]]
  have hpair : (s.write v).run.value = .ok "()".toList := by with_unfolding_all rfl
  have hnil : (s.write v).run.value = .ok [] := h s (.qual [leaf, leaf]) v rfl (by with_unfolding_all decide)
  rw [hpair] at hnil
  cases hnil

end ControlLanguage
