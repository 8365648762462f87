import ControlLanguage.Entries
import ControlLanguage.Schema.Definition
import ControlLanguage.Proofs.Case.Upper

/-!
# The shape that a definition describes

`Describes` says which shape the table of a definition stands for, without an
order of reading and without failures: the kind is decided by the declared
type and by the lists of parts that are not empty, and the parts of a
container are described by the items of its list, one for one. The shapes
that are read from definitions are the described ones: `shapeOf_eq_ok_iff`.
-/

namespace ControlLanguage

namespace Definition

/-! ## Entries of a definition -/

def value? (entries : List (Text × Datum)) (key : String) : Option Datum :=
  (Entries.lowerKeys entries).get? key.toList

def has (entries : List (Text × Datum)) (key : String) : Bool := (value? entries key).any (!·.isEmpty)

def declaredType? (entries : List (Text × Datum)) : Option Text :=
  match value? entries "type" with
  | some (.text t) => some t.normal
  | _ => if has entries "type" then none else some []

def specialValues? (entries : List (Text × Datum)) : Option (List Datum) :=
  match (value? entries "values").or (value? entries "allowed_values") with
  | some d => d.items?
  | none => some []

inductive Kind
  | simple | qual | elem
  deriving DecidableEq

/-- A declared container is one; otherwise a list of parts makes a container, that of a name before that of a group.
-/
def kindOf (entries : List (Text × Datum)) (type : Text) : Kind :=
  if type = "QUAL".toList ∨ (has entries "qual" ∧ type ≠ "ELEM".toList) then .qual
  else if type = "ELEM".toList ∨ has entries "elem" then .elem
  else .simple

mutual

/-- The shape that a definition stands for. A container has at least one part, and the parts of a name are simple.
-/
inductive Describes : List (Text × Datum) → Shape → Prop
  | simple {entries type allowed} : declaredType? entries = some type → kindOf entries type = .simple →
      specialValues? entries = some allowed → Describes entries (.simple (.ofType type allowed))
  | qual {entries type ds leaves} : declaredType? entries = some type → kindOf entries type = .qual →
      value? entries "qual" = some (.list ds) → DescribeAll ds (leaves.map .simple) → leaves ≠ [] →
        Describes entries (.qual leaves)
  | elem {entries type ds shapes} : declaredType? entries = some type → kindOf entries type = .elem →
      value? entries "elem" = some (.list ds) → DescribeAll ds shapes → shapes ≠ [] →
      Describes entries (.elem shapes)

inductive DescribeAll : List Datum → List Shape → Prop
  | nil : DescribeAll [] []
  | cons {entries s ds ss} : Describes entries s → DescribeAll ds ss → DescribeAll (.table entries :: ds) (s :: ss)

end

section
variable {keyword type : Text} {entries : List (Text × Datum)} {d : Datum} {ds : List Datum}
  {p : ProperShape} {ps : List ProperShape}

/-! ## Fields -/

/-- Of the entries that are one in lower case the last counts. -/
theorem value?_concat (entries : List (Text × Datum)) (t : Text) (d : Datum) (key : String) :
    value? (entries ++ [(t, d)]) key = if Text.lower t = key.toList then some d else value? entries key := by
  rw [value?, Entries.lowerKeys, List.map_append, List.map_singleton, Entries.get?_ofList_concat, value?,
    Entries.lowerKeys]

theorem readFields_eq_map (keyword : Text) (entries : List (Text × Datum)) :
    readFields keyword entries = entries.map fun e => (e.1, ⟨e.2, listedParts keyword e.2⟩) := by
  induction entries with
  | nil => rw [readFields]; rfl
  | cons e entries ih => rw [readFields, ih, List.map_cons]

theorem find?_fieldsOf (keyword : Text) (entries : List (Text × Datum)) (key : String) :
    find? (fieldsOf keyword entries) key = (value? entries key).map fun d => ⟨d, listedParts keyword d⟩ := by
  let field (d : Datum) : Field := ⟨d, listedParts keyword d⟩
  calc (fieldsOf keyword entries).get? key.toList
    _ = (Entries.lowerKeys (entries.map fun e => (e.1, field e.2))).get? key.toList := by
      rw [fieldsOf, readFields_eq_map]
    _ = ((Entries.lowerKeys entries).get? key.toList).map field := by
      rw [Entries.lowerKeys_map field, Entries.get?_map field]

theorem value_find?_fieldsOf (keyword : Text) (entries : List (Text × Datum)) (key : String) :
    (find? (fieldsOf keyword entries) key).map Field.value = value? entries key := by
  rw [find?_fieldsOf, Option.map_map]
  exact congrFun Option.map_id _

theorem value_findEither?_fieldsOf (keyword : Text) (entries : List (Text × Datum)) (key other : String) :
    (findEither? (fieldsOf keyword entries) key other).map Field.value =
      (value? entries key).or (value? entries other) := by
  rw [findEither?, Option.map_or, value_find?_fieldsOf, value_find?_fieldsOf]

theorem isGiven_fieldsOf (keyword : Text) (entries : List (Text × Datum)) (key : String) :
    isGiven (find? (fieldsOf keyword entries) key) = has entries key := by
  rw [find?_fieldsOf, isGiven, has, Option.any_map]

theorem normal_textOf_fieldsOf (keyword : Text) (entries : List (Text × Datum)) :
    (textOf (find? (fieldsOf keyword entries) "type")).map Text.normal =
      (declaredType? entries).elim (.error .wrongKind) .ok := by
  rw [textOf, isGiven_fieldsOf, value_find?_fieldsOf, declaredType?]
  cases value? entries "type" with
  | none => cases has entries "type" <;> rfl
  | some d => cases d <;> cases has entries "type" <;> rfl

theorem allowedOf_fieldsOf_eq_ok_iff (keyword : Text) {allowed : List Datum} :
    allowedOf (findEither? (fieldsOf keyword entries) "values" "allowed_values") = .ok allowed ↔
      specialValues? entries = some allowed := by
  have hvalue : (findEither? (fieldsOf keyword entries) "values" "allowed_values").map (·.value.items?) =
      ((value? entries "values").or (value? entries "allowed_values")).map (·.items?) := by
    rw [← value_findEither?_fieldsOf keyword, Option.map_map]
    rfl
  rw [allowedOf, hvalue, specialValues?]
  cases (value? entries "values").or (value? entries "allowed_values") with
  | none => simp
  | some d =>
    cases hd : d.items? with
    | none => simp [hd]
    | some items => simp [hd]

/-! ## Parts -/

theorem map_inl_injective : Function.Injective (List.map (Sum.inl : ProperShape → Outline.Checked)) :=
  List.map_injective_iff.2 fun _ _ => Sum.inl.inj

theorem leaves?_eq_some_iff {checked : List Outline.Checked} {leaves : List Leaf} :
    Outline.leaves? checked = some leaves ↔
      ∃ ps : List ProperShape, checked = ps.map .inl ∧ ps.map (·.val) = leaves.map .simple := by
  induction checked generalizing leaves with
  | nil =>
    constructor
    · intro h
      cases h
      exact ⟨[], rfl, rfl⟩
    · rintro ⟨ps, hps, hl⟩
      obtain rfl := List.map_eq_nil_iff.1 hps.symm
      rw [List.map_eq_nil_iff.1 hl.symm]
      rfl
  | cons c checked ih =>
    constructor
    · intro h
      rcases c with ⟨_ | _ | _, hs⟩ | name
      case inl.simple leaf =>
        obtain ⟨ls, hls, rfl⟩ := Option.map_eq_some_iff.1 h
        obtain ⟨ps, rfl, hl⟩ := ih.1 hls
        exact ⟨⟨.simple leaf, hs⟩ :: ps, rfl, by rw [List.map_cons, hl]; rfl⟩
      all_goals cases h
    · rintro ⟨ps, hps, hl⟩
      obtain ⟨⟨s, hs⟩, ps, rfl, rfl, rfl⟩ := List.map_eq_cons_iff.1 hps.symm
      obtain ⟨l, ls, rfl, ⟨⟩, hls⟩ := List.map_eq_cons_iff.1 hl.symm
      exact Option.map_eq_some_iff.2 ⟨ls, ih.2 ⟨ps, rfl, hls.symm⟩, rfl⟩

theorem shapes_eq_ok_iff {checked : List Outline.Checked} :
    Outline.shapes checked = .ok ps ↔ checked = ps.map .inl := by
  induction checked generalizing ps with
  | nil =>
    rw [Outline.shapes, eq_comm (a := []), List.map_eq_nil_iff, Except.ok.injEq, eq_comm]
  | cons c checked ih =>
    cases c with
    | inr name =>
      refine iff_of_false nofun fun h => ?_
      obtain ⟨p, _, _, hp, _⟩ := List.map_eq_cons_iff.1 h.symm
      cases hp
    | inl q =>
      rw [Outline.shapes]
      cases hs : Outline.shapes checked with
      | error fault =>
        refine iff_of_false nofun fun h => ?_
        obtain ⟨p, ps, _, _, hps⟩ := List.map_eq_cons_iff.1 h.symm
        rw [ih.2 hps.symm] at hs
        cases hs
      | ok qs =>
        rw [ih.1 hs]
        constructor
        · intro h
          cases h
          rfl
        · intro h
          change (q :: qs).map Sum.inl = ps.map Sum.inl at h
          rw [← map_inl_injective h]
          rfl

theorem qualShape_eq_ok_iff {checked : List Outline.Checked} :
    Outline.qualShape checked = .ok p ↔
      ∃ (ps : List ProperShape) (leaves : List Leaf), checked = ps.map .inl ∧ ps.map (·.val) = leaves.map .simple ∧
        leaves ≠ [] ∧ p.val = .qual leaves := by
  rw [Outline.qualShape]
  constructor
  · intro h
    split at h
    · cases h
    · next leaf leaves hl =>
      obtain ⟨ps, hps, hls⟩ := leaves?_eq_some_iff.1 hl
      cases h
      exact ⟨ps, _, hps, hls, List.cons_ne_nil _ _, rfl⟩
    · cases h
  · rintro ⟨ps, leaves, hps, hls, hne, hp⟩
    rw [leaves?_eq_some_iff.2 ⟨ps, hps, hls⟩]
    cases leaves with
    | nil => exact absurd rfl hne
    | cons leaf leaves => exact congrArg Except.ok (Subtype.ext hp.symm)

theorem elemShape_eq_ok_iff {checked : List Outline.Checked} :
    Outline.elemShape checked = .ok p ↔
      ∃ ps : List ProperShape, checked = ps.map .inl ∧ ps ≠ [] ∧ p.val = .elem (ps.map (·.val)) := by
  rw [Outline.elemShape]
  constructor
  · intro h
    split at h
    · cases h
    · cases h
    · next q qs hs =>
      cases h
      exact ⟨_, shapes_eq_ok_iff.1 hs, List.cons_ne_nil _ _, rfl⟩
  · rintro ⟨ps, hps, hne, hp⟩
    split
    · next fault hs => rw [shapes_eq_ok_iff.2 hps] at hs; cases hs
    · next hs => rw [shapes_eq_ok_iff.2 hps] at hs; cases hs; exact absurd rfl hne
    · next q qs hs =>
      rw [shapes_eq_ok_iff.2 hps] at hs
      cases hs
      exact congrArg Except.ok (Subtype.ext hp.symm)

theorem mapError_eq_ok_iff {ε ε' α : Type} {f : ε → ε'} {x : Except ε α} {a : α} :
    x.mapError f = .ok a ↔ x = .ok a := by
  cases x with
  | error e => exact iff_of_false nofun nofun
  | ok b => exact ⟨fun h => by cases h; rfl, fun h => by cases h; rfl⟩

theorem shapeOfParts_eq_ok_iff {make : List Outline.Checked → Except SchemaFault ProperShape}
    {field : Option Field} :
    shapeOfParts keyword make field = .ok p ↔
      ∃ ps, (field.map Field.parts).getD (.ok []) = .ok ps ∧ make (ps.map .inl) = .ok p := by
  rw [shapeOfParts]
  split
  · next e he => exact iff_of_false nofun fun ⟨_, h, _⟩ => by rw [he] at h; cases h
  · next ps hps =>
    rw [mapError_eq_ok_iff]
    exact ⟨fun h => ⟨ps, hps, h⟩, fun ⟨_, h, hm⟩ => by rw [hps] at h; cases h; exact hm⟩

theorem parts_fieldsOf_eq_ok_iff {key : String} (hps : ps ≠ []) :
    ((find? (fieldsOf keyword entries) key).map Field.parts).getD (.ok []) = .ok ps ↔
      ∃ ds, value? entries key = some (.list ds) ∧ shapesOfParts keyword ds = .ok ps := by
  rw [find?_fieldsOf, Option.map_map]
  cases value? entries key with
  | none => exact iff_of_false (fun h => hps (by cases h; rfl)) nofun
  | some d =>
    rw [Option.map_some, Option.getD_some]
    by_cases hd : ∃ ds, d = .list ds
    · obtain ⟨ds, rfl⟩ := hd
      rw [Function.comp_apply, listedParts]
      exact ⟨fun h => ⟨ds, rfl, h⟩, fun ⟨_, hds, h⟩ => by cases hds; exact h⟩
    · refine iff_of_false ?_ fun ⟨ds, hds, _⟩ => hd ⟨ds, by cases hds; rfl⟩
      rw [Function.comp_apply, listedParts]
      · split
        · nofun
        · intro h
          cases h
          exact hps rfl
        · nofun
      · exact fun ds hds => hd ⟨ds, hds⟩

theorem sizeOf_lt_of_value? {key : String} (h : value? entries key = some d) : sizeOf d < sizeOf entries := by
  obtain ⟨e, he, rfl⟩ := Option.map_eq_some_iff.1 h
  obtain ⟨f, hf, rfl⟩ := List.mem_map.1 (Entries.mem_of_mem_ofList (List.mem_of_find?_eq_some he))
  have := List.sizeOf_lt_of_mem hf
  have hf : sizeOf f = 1 + sizeOf f.1 + sizeOf f.2 := rfl
  change sizeOf f.2 < sizeOf entries
  omega

theorem shapeOf_fieldsOf (keyword : Text) (entries : List (Text × Datum)) :
    shapeOf keyword (fieldsOf keyword entries) =
      match declaredType? entries with
      | none => .error .wrongKind
      | some type =>
        match kindOf entries type with
        | .qual => shapeOfParts keyword Outline.qualShape (find? (fieldsOf keyword entries) "qual")
        | .elem => shapeOfParts keyword Outline.elemShape (find? (fieldsOf keyword entries) "elem")
        | .simple => (allowedOf (findEither? (fieldsOf keyword entries) "values" "allowed_values")).map
            fun allowed => ⟨.simple (.ofType type allowed), rfl⟩ := by
  have htype := normal_textOf_fieldsOf keyword entries
  rw [shapeOf]
  simp only [isGiven_fieldsOf]
  cases ht : textOf (find? (fieldsOf keyword entries) "type") with
  | error e =>
    rw [ht] at htype
    cases hd : declaredType? entries with
    | none => rw [hd] at htype; cases htype; rfl
    | some type => rw [hd] at htype; cases htype
  | ok t =>
    rw [ht] at htype
    cases hd : declaredType? entries with
    | none => rw [hd] at htype; cases htype
    | some type =>
      rw [hd] at htype
      cases htype
      simp only [kindOf]
      rw [Text.normal]
      split
      · rfl
      · split
        · rfl
        · rfl

/-! ## Reading -/

section
variable (ht : declaredType? entries = some type)
include ht

theorem shapeOf_simple_eq_ok_iff (hk : kindOf entries type = .simple) :
    shapeOf keyword (fieldsOf keyword entries) = .ok p ↔
      ∃ allowed, specialValues? entries = some allowed ∧ p.val = .simple (.ofType type allowed) := by
  rw [shapeOf_fieldsOf, ht]
  simp only [hk, ← allowedOf_fieldsOf_eq_ok_iff keyword]
  cases allowedOf (findEither? (fieldsOf keyword entries) "values" "allowed_values") with
  | error e => exact iff_of_false nofun nofun
  | ok allowed =>
    constructor
    · intro hp
      cases hp
      exact ⟨_, rfl, rfl⟩
    · rintro ⟨_, ⟨⟩, hp⟩
      exact congrArg Except.ok (Subtype.ext hp.symm)

theorem shapeOf_qual_eq_ok_iff (hk : kindOf entries type = .qual) :
    shapeOf keyword (fieldsOf keyword entries) = .ok p ↔
      ∃ ds ps leaves, value? entries "qual" = some (.list ds) ∧ shapesOfParts keyword ds = .ok ps ∧
        ps.map (·.val) = leaves.map .simple ∧ leaves ≠ [] ∧ p.val = .qual leaves := by
  rw [shapeOf_fieldsOf, ht]
  simp only [hk, shapeOfParts_eq_ok_iff, qualShape_eq_ok_iff]
  constructor
  · rintro ⟨ps, hps, _, leaves, heq, hl, hne, hp⟩
    obtain rfl := map_inl_injective heq
    have hne' : ps ≠ [] := fun h => hne (by rw [h] at hl; exact List.map_eq_nil_iff.1 hl.symm)
    obtain ⟨ds, hv, hds⟩ := (parts_fieldsOf_eq_ok_iff hne').1 hps
    exact ⟨ds, ps, leaves, hv, hds, hl, hne, hp⟩
  · rintro ⟨ds, ps, leaves, hv, hds, hl, hne, hp⟩
    have hne' : ps ≠ [] := fun h => hne (by rw [h] at hl; exact List.map_eq_nil_iff.1 hl.symm)
    exact ⟨ps, (parts_fieldsOf_eq_ok_iff hne').2 ⟨ds, hv, hds⟩, ps, leaves, rfl, hl, hne, hp⟩

theorem shapeOf_elem_eq_ok_iff (hk : kindOf entries type = .elem) :
    shapeOf keyword (fieldsOf keyword entries) = .ok p ↔
      ∃ ds ps, value? entries "elem" = some (.list ds) ∧ shapesOfParts keyword ds = .ok ps ∧
        ps ≠ [] ∧ p.val = .elem (ps.map (·.val)) := by
  rw [shapeOf_fieldsOf, ht]
  simp only [hk, shapeOfParts_eq_ok_iff, elemShape_eq_ok_iff]
  constructor
  · rintro ⟨ps, hps, _, heq, hne, hp⟩
    obtain rfl := map_inl_injective heq
    obtain ⟨ds, hv, hds⟩ := (parts_fieldsOf_eq_ok_iff hne).1 hps
    exact ⟨ds, ps, hv, hds, hne, hp⟩
  · rintro ⟨ds, ps, hv, hds, hne, hp⟩
    exact ⟨ps, (parts_fieldsOf_eq_ok_iff hne).2 ⟨ds, hv, hds⟩, ps, rfl, hne, hp⟩

end

theorem shapesOfParts_cons_eq_ok_iff :
    shapesOfParts keyword (d :: ds) = .ok ps ↔
      ∃ entries q qs, d = .table entries ∧ shapeOf keyword (fieldsOf keyword entries) = .ok q ∧
        shapesOfParts keyword ds = .ok qs ∧ ps = q :: qs := by
  by_cases hd : ∃ entries, d = .table entries
  · obtain ⟨entries, rfl⟩ := hd
    rw [shapesOfParts, shapeOfPart, ← fieldsOf]
    cases hq : shapeOf keyword (fieldsOf keyword entries) with
    | error e => exact iff_of_false nofun fun ⟨_, _, _, h, hq', _⟩ => by cases h; rw [hq] at hq'; cases hq'
    | ok q =>
      cases hqs : shapesOfParts keyword ds with
      | error e => exact iff_of_false nofun nofun
      | ok qs =>
        constructor
        · intro h
          cases h
          exact ⟨entries, q, qs, rfl, hq, rfl, rfl⟩
        · rintro ⟨_, q', _, ⟨⟩, hq', ⟨⟩, rfl⟩
          rw [hq] at hq'
          cases hq'
          rfl
  · refine iff_of_false ?_ fun ⟨entries, _, _, h, _⟩ => hd ⟨entries, h⟩
    rw [shapesOfParts, shapeOfPart]
    · nofun
    · exact fun entries h => hd ⟨entries, h⟩

theorem isProper_qual {leaves : List Leaf} (hne : leaves ≠ []) : (Shape.qual leaves).isProper = true := by
  cases leaves with
  | nil => exact absurd rfl hne
  | cons _ _ => rfl

theorem isProper_elem (hne : ps ≠ []) : (Shape.elem (ps.map (·.val))).isProper = true := by
  cases ps with
  | nil => exact absurd rfl hne
  | cons q qs =>
    rw [Shape.isProper, Bool.and_eq_true]
    refine ⟨rfl, Shape.areProper_iff.2 fun s hs => ?_⟩
    obtain ⟨p, -, rfl⟩ := List.mem_map.1 hs
    exact p.property

end

mutual

theorem describes_of_shapeOf {keyword : Text} {entries : List (Text × Datum)} {p : ProperShape}
    (h : shapeOf keyword (fieldsOf keyword entries) = .ok p) : Describes entries p.val := by
  cases ht : declaredType? entries with
  | none =>
    rw [shapeOf_fieldsOf, ht] at h
    cases h
  | some type =>
    cases hk : kindOf entries type with
    | simple =>
      obtain ⟨allowed, ha, hp⟩ := (shapeOf_simple_eq_ok_iff ht hk).1 h
      exact hp ▸ .simple ht hk ha
    | qual =>
      obtain ⟨ds, ps, leaves, hv, hds, hl, hne, hp⟩ := (shapeOf_qual_eq_ok_iff ht hk).1 h
      have hall := describeAll_of_shapesOfParts hds
      exact hp ▸ .qual ht hk hv (hl ▸ hall) hne
    | elem =>
      obtain ⟨ds, ps, hv, hds, hne, hp⟩ := (shapeOf_elem_eq_ok_iff ht hk).1 h
      exact hp ▸ .elem ht hk hv (describeAll_of_shapesOfParts hds) (mt List.map_eq_nil_iff.1 hne)
termination_by sizeOf entries
decreasing_by
  all_goals
    have := sizeOf_lt_of_value? hv
    rw [Datum.list.sizeOf_spec] at this
    omega

theorem describeAll_of_shapesOfParts {keyword : Text} {ds : List Datum} {ps : List ProperShape}
    (h : shapesOfParts keyword ds = .ok ps) : DescribeAll ds (ps.map (·.val)) := by
  match ds with
  | [] =>
    cases h
    exact .nil
  | d :: ds =>
    obtain ⟨entries, q, qs, rfl, hq, hqs, rfl⟩ := shapesOfParts_cons_eq_ok_iff.1 h
    exact .cons (describes_of_shapeOf hq) (describeAll_of_shapesOfParts hqs)
termination_by sizeOf ds

end

mutual

theorem shapeOf_of_describes (keyword : Text) {entries : List (Text × Datum)} {s : Shape}
    (h : Describes entries s) :
    ∃ p, shapeOf keyword (fieldsOf keyword entries) = .ok p ∧ p.val = s := by
  match h with
  | .simple ht hk ha => exact ⟨⟨_, rfl⟩, (shapeOf_simple_eq_ok_iff ht hk).2 ⟨_, ha, rfl⟩, rfl⟩
  | .qual ht hk hv hall hne =>
    obtain ⟨ps, hps, hl⟩ := shapesOfParts_of_describeAll keyword hall
    exact ⟨⟨_, isProper_qual hne⟩, (shapeOf_qual_eq_ok_iff ht hk).2 ⟨_, ps, _, hv, hps, hl, hne, rfl⟩, rfl⟩
  | .elem ht hk hv hall hne =>
    obtain ⟨ps, hps, rfl⟩ := shapesOfParts_of_describeAll keyword hall
    have hne := mt List.map_eq_nil_iff.2 hne
    exact ⟨⟨_, isProper_elem hne⟩, (shapeOf_elem_eq_ok_iff ht hk).2 ⟨_, ps, hv, hps, hne, rfl⟩, rfl⟩

theorem shapesOfParts_of_describeAll (keyword : Text) {ds : List Datum} {ss : List Shape} (h : DescribeAll ds ss) :
    ∃ ps, shapesOfParts keyword ds = .ok ps ∧ ps.map (·.val) = ss := by
  match h with
  | .nil => exact ⟨[], rfl, rfl⟩
  | .cons hd hds =>
    obtain ⟨q, hq, hs⟩ := shapeOf_of_describes keyword hd
    obtain ⟨qs, hqs, hss⟩ := shapesOfParts_of_describeAll keyword hds
    exact ⟨q :: qs, shapesOfParts_cons_eq_ok_iff.2 ⟨_, q, qs, rfl, hq, hqs, rfl⟩, by rw [List.map_cons, hs, hss]⟩

end

/-- The shapes that are read from definitions are those that the definitions describe. -/
theorem shapeOf_eq_ok_iff {keyword : Text} {entries : List (Text × Datum)} {p : ProperShape} :
    shapeOf keyword (fieldsOf keyword entries) = .ok p ↔ Describes entries p.val := by
  refine ⟨describes_of_shapeOf, fun h => ?_⟩
  obtain ⟨q, hq, hqp⟩ := shapeOf_of_describes keyword h
  rw [hq, Subtype.ext hqp]

end Definition

end ControlLanguage
