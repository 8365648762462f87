import Mathlib.Data.List.Nodup
import ControlLanguage.Proofs.Grammar
import ControlLanguage.Proofs.Schema.Reading

/-!
# Definitions that encode a schema

The definition of a schema names its keyword, its number of instances, its
default and its shape: the type and the special values of a simple value, or
the list of the parts of a container. What holds anyway may be left out, the
fields stand in any order and their keys in any letter case. The schema that
is read from such a definition is the schema that it encodes:
`Schema.ofDefinition_encoding`.
-/

namespace ControlLanguage

namespace Definition

/-! ## Fields of a table -/

/-- The table has the given fields, in any order, its keys in any letter case. Of entries that are one field the
last counts. -/
def Spells (entries : List (Text × Datum)) (fields : List (String × Datum)) : Prop :=
  (Entries.lowerKeys entries).Perm (fields.map fun f => (f.1.toList, f.2))

/-- Fields that give a value under a key. They may leave it out only if it is dispensable. -/
inductive Gives (key : String) (value : Datum) (dispensable : Prop) : List (String × Datum) → Prop
  | given : Gives key value dispensable [(key, value)]
  | omitted : dispensable → Gives key value dispensable []

/-! ## Encodings -/

mutual

/-- The fields by which a definition stands for a shape. The lists of parts need no declared type beside them. -/
inductive Encodes : List (String × Datum) → Shape → Prop
  | simple {leaf type values} : Gives "type" (.text leaf.type) (leaf.type = []) type →
      Gives "values" (.list leaf.allowed) (leaf.allowed = []) values → Encodes (type ++ values) (.simple leaf)
  | qual {leaves type ds} : Gives "type" (.text "QUAL".toList) True type → EncodeAll ds (leaves.map .simple) →
      Encodes (type ++ [("qual", .list ds)]) (.qual leaves)
  | elem {shapes type ds} : Gives "type" (.text "ELEM".toList) True type → EncodeAll ds shapes →
      Encodes (type ++ [("elem", .list ds)]) (.elem shapes)

inductive EncodeAll : List Datum → List Shape → Prop
  | nil : EncodeAll [] []
  | cons {entries fields s ds ss} : Spells entries fields → Encodes fields s → EncodeAll ds ss →
      EncodeAll (.table entries :: ds) (s :: ss)

end

/-- The definition encodes the schema. A parameter has one instance and no default if nothing else is said. -/
def EncodesSchema (entries : List (Text × Datum)) (s : Schema) : Prop :=
  ∃ shape max dft fields, s.shape = some shape ∧ Gives "max" (.int s.max) (s.max = 1) max ∧
    Gives "dft" s.default (s.default = .null) dft ∧ Encodes fields shape ∧
      Spells entries (("kwd", .text s.keyword) :: (max ++ dft ++ fields))

end Definition

/-! ## Simple parts -/

namespace Shape

mutual

def simpleParts : Shape → List Leaf
  | simple leaf => [leaf]
  | qual parts => parts
  | elem parts => simplePartsOf parts

def simplePartsOf : List Shape → List Leaf
  | [] => []
  | s :: ss => simpleParts s ++ simplePartsOf ss

end

theorem mem_simplePartsOf {leaf : Leaf} {ss : List Shape} :
    leaf ∈ simplePartsOf ss ↔ ∃ s ∈ ss, leaf ∈ s.simpleParts := by
  induction ss with
  | nil => exact iff_of_false nofun nofun
  | cons s ss ih => rw [simplePartsOf, List.mem_append, ih, List.exists_mem_cons_iff]

end Shape

namespace Definition

section
variable {entries : List (Text × Datum)} {fields : List (String × Datum)} {key : String} {d value : Datum}
  {dispensable : Prop} {s : Shape}

/-! ## Reading fields -/

theorem get?_map_toList (fields : List (String × Datum)) (key : String) :
    Entries.get? (fields.map fun f => (f.1.toList, f.2)) key.toList = fields.lookup key := by
  induction fields with
  | nil => rfl
  | cons f fields ih =>
    rw [Entries.get?] at ih ⊢
    by_cases hf : f.1 = key
    · rw [List.map_cons, List.find?_cons_of_pos (by simp [hf]), List.lookup_cons, beq_iff_eq.2 hf.symm]
      rfl
    · rw [List.map_cons, List.find?_cons_of_neg (by simpa [String.toList_inj] using hf), ih, List.lookup_cons,
        beq_false_of_ne (Ne.symm hf)]

theorem spells_nil : Spells [] [] := .nil

theorem spells_cons {t : Text} (hk : Text.lower t = key.toList) (hnew : key ∉ fields.map (·.1))
    (h : Spells entries fields) : Spells ((t, d) :: entries) ((key, d) :: fields) := by
  have hkey : key.toList ∉ (entries.map fun e => (Text.lower e.1, e.2)).map (·.1) := by
    rw [← Entries.mem_keys_ofList, ← Entries.lowerKeys, (List.Perm.map _ h).mem_iff, List.map_map]
    intro hmem
    obtain ⟨f, hf, hfk⟩ := List.mem_map.1 hmem
    exact hnew (List.mem_map.2 ⟨f, hf, String.toList_injective hfk⟩)
  rw [Spells, Entries.lowerKeys, List.map_cons, hk, Entries.ofList_cons_of_not_mem hkey]
  exact h.cons _

theorem Spells.perm {fields' : List (String × Datum)} (h : Spells entries fields) (hp : fields.Perm fields') :
    Spells entries fields' :=
  h.trans (hp.map _)

theorem value?_of_spells (h : Spells entries fields) (hn : (fields.map (·.1)).Nodup) (key : String) :
    value? entries key = fields.lookup key := by
  rw [value?, Entries.get?_eq_of_perm h, get?_map_toList]
  rw [List.map_map]
  have := hn.map (f := String.toList) fun _ _ => String.toList_injective
  rwa [List.map_map] at this

theorem lookup_eq_none {keys : List String} (h : (fields.map (·.1)).Sublist keys) (hk : key ∉ keys) :
    fields.lookup key = none := by
  refine List.lookup_eq_none_iff.2 fun f hf => ?_
  have hne : key ≠ f.1 := fun he => hk (h.subset (he ▸ List.mem_map_of_mem hf))
  simpa using hne

theorem Gives.sublist_keys (h : Gives key value dispensable fields) : (fields.map (·.1)).Sublist [key] := by
  cases h with
  | given => exact .refl _
  | omitted => exact List.nil_sublist _

theorem Encodes.sublist_keys (h : Encodes fields s) :
    (fields.map (·.1)).Sublist ["type", "values", "qual", "elem"] := by
  cases h with
  | simple ht hv =>
    rw [List.map_append]
    exact (ht.sublist_keys.append hv.sublist_keys).trans (by decide)
  | qual ht =>
    rw [List.map_append]
    exact (ht.sublist_keys.append (.refl ["qual"])).trans (by decide)
  | elem ht =>
    rw [List.map_append]
    exact (ht.sublist_keys.append (.refl ["elem"])).trans (by decide)

end

/-! ## Shapes -/

/-- A leaf whose type is kept as schemas keep it and names no container. -/
def IsValue (leaf : Leaf) : Prop :=
  Text.normal leaf.type = leaf.type ∧ leaf.type ≠ "QUAL".toList ∧ leaf.type ≠ "ELEM".toList

def shapeKeys : List String := ["type", "values", "allowed_values", "qual", "elem"]

section
variable {entries : List (Text × Datum)} {type : Text} {dispensable : Prop}
    {fields valueFields : List (String × Datum)}

theorem declaredType?_of_gives (ht : Gives "type" (.text type) dispensable fields)
    (hv : value? entries "type" = fields.lookup "type") :
    declaredType? entries = some type.normal ∨ dispensable ∧ declaredType? entries = some [] := by
  rw [declaredType?, has, hv]
  cases ht with
  | given => exact .inl rfl
  | omitted hd => exact .inr ⟨hd, rfl⟩

theorem describes_simple {leaf : Leaf} (hl : IsValue leaf)
    (ht : Gives "type" (.text leaf.type) (leaf.type = []) fields)
    (ha : Gives "values" (.list leaf.allowed) (leaf.allowed = []) valueFields)
    (hv : ∀ key ∈ shapeKeys, value? entries key = (fields ++ valueFields).lookup key) :
    Describes entries (.simple leaf) := by
  obtain ⟨hnormal, hqual, helem⟩ := hl
  have htype : declaredType? entries = some leaf.type := by
    have hv := hv "type" (by decide)
    rw [List.lookup_append, lookup_eq_none ha.sublist_keys (by decide), Option.or_none] at hv
    rcases declaredType?_of_gives ht hv with h | ⟨hnil, h⟩
    · rw [h, hnormal]
    · rw [h, hnil]
  have hnone : ∀ key ∈ ["allowed_values", "qual", "elem"], value? entries key = none := by
    have hkeys : ((fields ++ valueFields).map (·.1)).Sublist ["type", "values"] := by
      rw [List.map_append]
      exact ht.sublist_keys.append ha.sublist_keys
    intro key hkey
    obtain ⟨hmem, hnot⟩ : key ∈ shapeKeys ∧ key ∉ ["type", "values"] := by
      revert key
      decide
    rw [hv key hmem, lookup_eq_none hkeys hnot]
  have hkind : kindOf entries leaf.type = .simple := by
    rw [kindOf, has, has, hnone "qual" (by decide), hnone "elem" (by decide)]
    rw [if_neg (by simpa using hqual), if_neg (by simpa using helem)]
  have hallowed : specialValues? entries = some leaf.allowed := by
    have hv := hv "values" (by decide)
    rw [List.lookup_append, lookup_eq_none ht.sublist_keys (by decide), Option.none_or] at hv
    rw [specialValues?, hnone "allowed_values" (by decide), Option.or_none, hv]
    cases ha with
    | given => rfl
    | omitted hnil => rw [hnil]; rfl
  have hleaf : Leaf.ofType leaf.type leaf.allowed = leaf := by
    rw [Leaf.ofType, ← Text.normal, hnormal]
  exact hleaf ▸ .simple htype hkind hallowed

theorem values_of_container {name key : String} {ds : List Datum} (hk : key ∈ ["qual", "elem"])
    (ht : Gives "type" (.text name.toList) True fields)
    (hv : ∀ k ∈ shapeKeys, value? entries k = (fields ++ [(key, Datum.list ds)]).lookup k) :
    (∃ type, declaredType? entries = some type ∧ (type = Text.normal name.toList ∨ type = [])) ∧
      value? entries key = some (.list ds) ∧ ∀ k ∈ ["qual", "elem"], k ≠ key → value? entries k = none := by
  have hkeys : ∀ k ∈ ["qual", "elem"], k ∈ shapeKeys ∧ k ∉ ["type"] := by decide
  have hother : ∀ {k : String}, k ≠ key → List.lookup k [(key, Datum.list ds)] = none :=
    fun hne => lookup_eq_none (List.Sublist.refl [key]) (by simpa using hne)
  refine ⟨?_, ?_, fun k hmem hne => ?_⟩
  · have hv := hv "type" (by decide)
    rw [List.lookup_append, hother fun he => (hkeys key hk).2 (he ▸ List.mem_singleton_self _),
      Option.or_none] at hv
    rcases declaredType?_of_gives ht hv with h | ⟨-, h⟩
    · exact ⟨_, h, .inl rfl⟩
    · exact ⟨_, h, .inr rfl⟩
  · rw [hv key (hkeys key hk).1, List.lookup_append, lookup_eq_none ht.sublist_keys (hkeys key hk).2,
      List.lookup_cons,
      beq_self_eq_true]
    rfl
  · rw [hv k (hkeys k hmem).1, List.lookup_append, lookup_eq_none ht.sublist_keys (hkeys k hmem).2, hother hne]
    rfl

theorem has_of_parts {key : String} {ds : List Datum} (hv : value? entries key = some (.list ds)) (hne : ds ≠ []) :
    has entries key = true := by
  rw [has, hv]
  cases ds with
  | nil => exact absurd rfl hne
  | cons d ds => rfl

theorem kindOf_qual {ds : List Datum} (ht : type = Text.normal "QUAL".toList ∨ type = [])
    (hv : value? entries "qual" = some (.list ds)) (hne : ds ≠ []) : kindOf entries type = .qual := by
  rw [kindOf, has_of_parts hv hne]
  rcases ht with rfl | rfl
  · rfl
  · rfl

theorem kindOf_elem {ds : List Datum} (ht : type = Text.normal "ELEM".toList ∨ type = [])
    (hv : value? entries "elem" = some (.list ds)) (hq : value? entries "qual" = none) (hne : ds ≠ []) :
    kindOf entries type = .elem := by
  rw [kindOf, has_of_parts hv hne, has, hq]
  rcases ht with rfl | rfl
  · rfl
  · rfl

theorem EncodeAll.ne_nil {ds : List Datum} {ss : List Shape} (h : EncodeAll ds ss) (hs : ss ≠ []) : ds ≠ [] := by
  cases h with
  | nil => exact absurd rfl hs
  | cons => exact List.cons_ne_nil _ _

theorem simplePartsOf_map_simple (leaves : List Leaf) : Shape.simplePartsOf (leaves.map .simple) = leaves := by
  induction leaves with
  | nil => rfl
  | cons leaf leaves ih => rw [List.map_cons, Shape.simplePartsOf, ih]; rfl

theorem areProper_map_simple (leaves : List Leaf) : Shape.areProper (leaves.map .simple) = true := by
  refine Shape.areProper_iff.2 fun s hs => ?_
  obtain ⟨leaf, -, rfl⟩ := List.mem_map.1 hs
  rfl

end

mutual

-- The keyword, the number of instances and the default stand beside the fields of the outermost shape, so only the
-- keys of shapes are compared.
theorem describes_of_encodes {entries : List (Text × Datum)} {fields : List (String × Datum)} {s : Shape}
    (h : Encodes fields s) (hp : s.isProper = true) (hl : ∀ leaf ∈ s.simpleParts, IsValue leaf)
    (hv : ∀ key ∈ shapeKeys, value? entries key = fields.lookup key) : Describes entries s := by
  match h with
  | .simple ht ha => exact describes_simple (hl _ (List.mem_singleton_self _)) ht ha hv
  | .qual ht hall =>
    obtain ⟨⟨type, htype, hname⟩, hqual, -⟩ := values_of_container (by decide) ht hv
    rw [Shape.isProper, Bool.not_eq_true'] at hp
    have hne := List.isEmpty_eq_false_iff.1 hp
    have hdescribe := describeAll_of_encodeAll hall (areProper_map_simple _)
      ((simplePartsOf_map_simple _).symm ▸ hl)
    have hds := hall.ne_nil (mt List.map_eq_nil_iff.1 hne)
    exact .qual htype (kindOf_qual hname hqual hds) hqual hdescribe hne
  | .elem ht hall =>
    obtain ⟨⟨type, htype, hname⟩, helem, hnone⟩ := values_of_container (by decide) ht hv
    rw [Shape.isProper, Bool.and_eq_true, Bool.not_eq_true'] at hp
    have hne := List.isEmpty_eq_false_iff.1 hp.1
    have hdescribe := describeAll_of_encodeAll hall hp.2 hl
    have hds := hall.ne_nil hne
    have hqual := hnone "qual" (by decide) (by decide)
    exact .elem htype (kindOf_elem hname helem hqual hds) helem hdescribe hne

theorem describeAll_of_encodeAll {ds : List Datum} {ss : List Shape} (h : EncodeAll ds ss)
    (hp : Shape.areProper ss = true) (hl : ∀ leaf ∈ Shape.simplePartsOf ss, IsValue leaf) : DescribeAll ds ss := by
  match h with
  | .nil => exact .nil
  | .cons hs he hall =>
    rw [Shape.areProper, Bool.and_eq_true] at hp
    rw [Shape.simplePartsOf, List.forall_mem_append] at hl
    have hn := he.sublist_keys.nodup (by decide)
    exact .cons (describes_of_encodes he hp.1 hl.1 fun key _ => value?_of_spells hs hn key)
      (describeAll_of_encodeAll hall hp.2 hl.2)

end

section
variable {entries : List (Text × Datum)} {fields : List (String × Datum)} {ss : List Shape}

/-! ## Every shape has an encoding -/

def definitionKeys : List String := ["kwd", "max", "dft", "type", "values", "qual", "elem"]

theorem sublist_definitionKeys {s : Shape} {max dft : List (String × Datum)} {count default : Datum} {p q : Prop}
    (keyword : Datum) (hmax : Gives "max" count p max) (hdft : Gives "dft" default q dft) (he : Encodes fields s) :
    ((("kwd", keyword) :: (max ++ dft ++ fields)).map (·.1)).Sublist definitionKeys := by
  rw [List.map_cons, List.map_append, List.map_append]
  exact ((hmax.sublist_keys.append hdft.sublist_keys).append he.sublist_keys).cons_cons "kwd"

theorem exists_spells (h : (fields.map (·.1)).Sublist definitionKeys) : ∃ entries, Spells entries fields := by
  induction fields with
  | nil => exact ⟨[], spells_nil⟩
  | cons f fields ih =>
    have hlower : ∀ key ∈ definitionKeys, Text.lower key.toList = key.toList := by decide
    have hnodup := h.nodup (by decide)
    rw [List.map_cons] at h hnodup
    obtain ⟨entries, hs⟩ := ih ((List.sublist_cons_self ..).trans h)
    exact ⟨_, spells_cons (hlower f.1 (h.subset (List.mem_cons_self ..))) (List.nodup_cons.1 hnodup).1 hs⟩

theorem exists_encodeAll (h : ∀ s ∈ ss, ∃ fields, Encodes fields s) : ∃ ds, EncodeAll ds ss := by
  induction ss with
  | nil => exact ⟨[], .nil⟩
  | cons s ss ih =>
    rw [List.forall_mem_cons] at h
    obtain ⟨⟨fields, he⟩, hss⟩ := h
    obtain ⟨entries, hs⟩ := exists_spells (he.sublist_keys.trans (by decide))
    obtain ⟨ds, hds⟩ := ih hss
    exact ⟨.table entries :: ds, .cons hs he hds⟩

end

theorem exists_encodes (s : Shape) : ∃ fields, Encodes fields s := by
  match s with
  | .simple leaf => exact ⟨_, .simple .given .given⟩
  | .qual leaves =>
    have hleaves : ∀ s ∈ leaves.map Shape.simple, ∃ fields, Encodes fields s := by
      intro s hs
      obtain ⟨leaf, -, rfl⟩ := List.mem_map.1 hs
      exact ⟨_, .simple .given .given⟩
    obtain ⟨ds, hds⟩ := exists_encodeAll hleaves
    exact ⟨_, .qual .given hds⟩
  | .elem shapes =>
    have hshapes : ∀ s ∈ shapes, ∃ fields, Encodes fields s := fun s _ => exists_encodes s
    obtain ⟨ds, hds⟩ := exists_encodeAll hshapes
    exact ⟨_, .elem .given hds⟩

end Definition

/-! ## Schemas -/

section
variable {s : Schema} {shape : Option ProperShape} {keyword : Text} {max : Int} {default : Datum}

theorem Schema.ofShape_eq_ok (h : Schema.ofShape keyword shape max default = .ok s) :
    s.keyword = keyword.normal ∧ s.shape = shape.map (·.val) := by
  rw [Schema.ofShape] at h
  split at h
  · cases h
  · split at h
    · cases h
    · cases h
      exact ⟨rfl, rfl⟩

theorem Schema.ofShape_self (hk : s.keyword.normal = s.keyword) (hs : s.shape = shape.map (·.val)) :
    Schema.ofShape s.keyword shape s.max s.default = .ok s := by
  obtain ⟨keyword, _, max, default, hne, hmax, _⟩ := s
  rw [Text.normal] at hk
  subst hs
  simp only [Schema.ofShape, hk]
  rw [dif_neg hne, dif_neg (by omega)]
  rfl

end

mutual

theorem Outline.normal_of_check (o : Outline) {p : ProperShape} (h : o.check = .ok (.inl p)) :
    ∀ leaf ∈ p.val.simpleParts, leaf.type.normal = leaf.type := by
  match o with
  | .simple type allowed =>
    cases h
    intro leaf hleaf
    rw [List.mem_singleton.1 hleaf]
    exact Text.normal_normal type
  | .qual parts =>
    rw [Outline.check] at h
    split at h
    · cases h
    · next checked hparts =>
      obtain ⟨q, hq, ⟨⟩⟩ := Value.map_eq_ok h
      obtain ⟨ps, leaves, rfl, hls, -, hp⟩ := Definition.qualShape_eq_ok_iff.1 hq
      rw [hp]
      intro leaf hleaf
      have hmem : Shape.simple leaf ∈ ps.map (·.val) := hls ▸ List.mem_map_of_mem hleaf
      obtain ⟨part, hpart, hval⟩ := List.mem_map.1 hmem
      have hleaf : leaf ∈ part.val.simpleParts := hval ▸ List.mem_singleton_self _
      exact Outline.normal_of_checkAll parts hparts part (List.mem_map_of_mem hpart) leaf hleaf
  | .elem parts =>
    rw [Outline.check] at h
    split at h
    · cases h
    · next checked hparts =>
      obtain ⟨q, hq, ⟨⟩⟩ := Value.map_eq_ok h
      obtain ⟨ps, rfl, -, hp⟩ := Definition.elemShape_eq_ok_iff.1 hq
      rw [hp]
      intro leaf hleaf
      obtain ⟨s, hs, hleaf⟩ := Shape.mem_simplePartsOf.1 hleaf
      obtain ⟨part, hpart, rfl⟩ := List.mem_map.1 hs
      exact Outline.normal_of_checkAll parts hparts part (List.mem_map_of_mem hpart) leaf hleaf
  | .name _ => cases h

theorem Outline.normal_of_checkAll (os : List Outline) {checked : List Outline.Checked}
    (h : Outline.checkAll os = .ok checked) :
    ∀ p, .inl p ∈ checked → ∀ leaf ∈ p.val.simpleParts, leaf.type.normal = leaf.type := by
  match os with
  | [] =>
    cases h
    nofun
  | o :: os =>
    rw [Outline.checkAll] at h
    split at h
    · cases h
    · next c ho =>
      obtain ⟨cs, hos, rfl⟩ := Value.map_eq_ok h
      intro p hp
      rcases List.mem_cons.1 hp with rfl | hp
      · exact Outline.normal_of_check o ho
      · exact Outline.normal_of_checkAll os hos p hp

end

section
open Definition
variable {entries : List (Text × Datum)} {s : Schema} {shape : Shape}

theorem Schema.ofDefinition_eq_ok_iff {shown : Text} (hshown : shownKeyword (keywordOf entries) = shown) :
    Schema.ofDefinition entries = .ok s ↔
      ∃ max p keyword, toInt? ((value? entries "max").getD (.int 1)) = some max ∧
        shapeOf shown (fieldsOf shown entries) = .ok p ∧
        textOf (findEither? (fieldsOf shown entries) "kwd" "keyword") = .ok keyword ∧
        Schema.ofShape keyword (some p) max
          (((value? entries "dft").or (value? entries "default")).getD .null) = .ok s := by
  rw [Schema.ofDefinition, hshown]
  simp only [value_find?_fieldsOf, value_findEither?_fieldsOf]
  cases toInt? ((value? entries "max").getD (.int 1)) with
  | none => exact iff_of_false nofun nofun
  | some n =>
    cases shapeOf shown (fieldsOf shown entries) with
    | error e => exact iff_of_false nofun nofun
    | ok p =>
      cases textOf (findEither? (fieldsOf shown entries) "kwd" "keyword") with
      | error e => exact iff_of_false nofun nofun
      | ok keyword =>
        change Except.mapError _ _ = _ ↔ _
        rw [mapError_eq_ok_iff]
        constructor
        · exact fun h => ⟨n, p, keyword, rfl, rfl, rfl, h⟩
        · rintro ⟨_, _, _, ⟨⟩, ⟨⟩, ⟨⟩, h⟩
          exact h

theorem Schema.ofDefinition_of_encodes (hk : s.keyword.normal = s.keyword) (hs : s.shape = some shape)
    (hl : ∀ leaf ∈ shape.simpleParts, IsValue leaf) (h : EncodesSchema entries s) :
    Schema.ofDefinition entries = .ok s := by
  obtain ⟨_, max, dft, fields, hs', hmax, hdft, he, hspells⟩ := h
  obtain rfl := Option.some.inj (hs.symm.trans hs')
  have hkeys := sublist_definitionKeys (.text s.keyword) hmax hdft he
  have hvalue := value?_of_spells hspells (hkeys.nodup (by decide))
  have hrest : ∀ key, key ≠ "kwd" →
      value? entries key = (max.lookup key).or ((dft.lookup key).or (fields.lookup key)) := by
    intro key hkey
    rw [hvalue, List.lookup_cons, beq_false_of_ne hkey]
    simp only [List.lookup_append, Option.or_assoc]
  have hcount : (value? entries "max").getD (.int 1) = .int s.max := by
    rw [hrest "max" (by decide), lookup_eq_none hdft.sublist_keys (by decide),
      lookup_eq_none he.sublist_keys (by decide), Option.or_none, Option.or_none]
    cases hmax with
    | given => rfl
    | omitted h => rw [h]; rfl
  have hdefault : ((value? entries "dft").or (value? entries "default")).getD .null = s.default := by
    rw [hrest "dft" (by decide), hrest "default" (by decide)]
    rw [lookup_eq_none hmax.sublist_keys (by decide), lookup_eq_none hmax.sublist_keys (by decide),
      lookup_eq_none hdft.sublist_keys (by decide : "default" ∉ ["dft"]),
      lookup_eq_none he.sublist_keys (by decide), lookup_eq_none he.sublist_keys (by decide)]
    cases hdft with
    | given => rfl
    | omitted h => rw [h]; rfl
  have hdescribes : Describes entries shape := by
    refine describes_of_encodes he (s.proper _ hs) hl fun key hkey => ?_
    obtain ⟨hkwd, hnmax, hndft⟩ : key ≠ "kwd" ∧ key ∉ ["max"] ∧ key ∉ ["dft"] := by
      revert key
      decide
    rw [hrest key hkwd, lookup_eq_none hmax.sublist_keys hnmax,
      lookup_eq_none hdft.sublist_keys hndft, Option.none_or, Option.none_or]
  obtain ⟨p, hp, rfl⟩ := shapeOf_of_describes (shownKeyword (keywordOf entries)) hdescribes
  refine (Schema.ofDefinition_eq_ok_iff rfl).2 ⟨s.max, p, s.keyword, ?_, hp, ?_, ?_⟩
  · rw [hcount]
    rfl
  · rw [textOf, value_findEither?_fieldsOf, hvalue]
    rfl
  · rw [hdefault]
    exact Schema.ofShape_self hk hs

theorem Schema.normal_of_ofOutline {keyword : Text} {outline : Outline} {max : Int} {default : Datum}
    (h : Schema.ofOutline keyword outline max default = .ok s) (hs : s.shape = some shape) :
    s.keyword.normal = s.keyword ∧ ∀ leaf ∈ shape.simpleParts, leaf.type.normal = leaf.type := by
  rw [Schema.ofOutline] at h
  split at h
  · cases h
  · next checked hc =>
    obtain ⟨hk, hshape⟩ := Schema.ofShape_eq_ok h
    rw [hs] at hshape
    cases checked with
    | inr name => cases hshape
    | inl p =>
      obtain rfl := Option.some.inj hshape
      exact ⟨by rw [hk, Text.normal_normal], Outline.normal_of_check outline hc⟩

theorem Schema.exists_encodes (hs : s.shape = some shape) : ∃ entries, EncodesSchema entries s := by
  obtain ⟨fields, he⟩ := Definition.exists_encodes shape
  have hmax : Gives "max" (.int s.max) (s.max = 1) [("max", .int s.max)] := .given
  have hdft : Gives "dft" s.default (s.default = .null) [("dft", s.default)] := .given
  have hkeys := sublist_definitionKeys (.text s.keyword) hmax hdft he
  obtain ⟨entries, hspells⟩ := exists_spells hkeys
  exact ⟨entries, shape, _, _, fields, hs, hmax, hdft, he, hspells⟩

/-- The schema that is read from a definition is the schema that the definition encodes, and every schema whose
simple values have types of their own has encodings. Whatever is read, the shape is the one that the definition
describes. -/
theorem Schema.ofDefinition_encoding :
    (∀ {keyword : Text} {outline : Outline} {max : Int} {default : Datum} {s : Schema} {shape : Shape},
      Schema.ofOutline keyword outline max default = .ok s → s.shape = some shape →
        (∀ leaf ∈ shape.simpleParts, leaf.type ≠ "QUAL".toList ∧ leaf.type ≠ "ELEM".toList) →
          (∃ entries, EncodesSchema entries s) ∧
            ∀ entries, EncodesSchema entries s → Schema.ofDefinition entries = .ok s) ∧
      ∀ entries s, Schema.ofDefinition entries = .ok s →
        ∃ shape, s.shape = some shape ∧ shape.isProper = true ∧ Describes entries shape := by
  constructor
  · intro _ _ _ _ s shape h hs hl
    obtain ⟨hk, hnormal⟩ := Schema.normal_of_ofOutline h hs
    refine ⟨Schema.exists_encodes hs, fun _ he => Schema.ofDefinition_of_encodes hk hs ?_ he⟩
    exact fun leaf hleaf => ⟨hnormal leaf hleaf, hl leaf hleaf⟩
  · intro entries s h
    obtain ⟨max, p, keyword, -, hp, -, hs⟩ := (Schema.ofDefinition_eq_ok_iff rfl).1 h
    exact ⟨p.val, (Schema.ofShape_eq_ok hs).2, p.property, describes_of_shapeOf hp⟩

/-- A group of a name and a number, from a definition that leaves the types of the containers out. -/
theorem Schema.ofDefinition_encoding_group :
    let name := "name".toList
    let outline :=
      Outline.elem [.qual [.simple name [], .simple name [.text "*LIBL".toList]], .simple "dec".toList []]
    let names : List Datum := [.table [("tYPE".toList, .text "NAME".toList)],
      .table [("Values".toList, .list [.text "*LIBL".toList]), ("Type".toList, .text "NAME".toList)]]
    let parts : List Datum := [.table [("Qual".toList, .list names)],
      .table [("Type".toList, .text "DEC".toList), ("values".toList, .list [])]]
    ∃ s : Schema, Schema.ofOutline "jobq".toList outline 3 .null = .ok s ∧
      Schema.ofDefinition [("ELEM".toList, .list parts), ("Max".toList, .int 3),
        ("Kwd".toList, .text "JOBQ".toList)] =
        .ok s := by
  intro name outline names parts
  have hmade : Schema.ofOutline "jobq".toList outline 3 .null = .ok _ := rfl
  refine ⟨_, hmade, (Schema.ofDefinition_encoding.1 hmade rfl ?_).2 _ ?_⟩
  · decide
  · have hnames : EncodeAll names
        (List.map .simple [⟨"NAME".toList, []⟩, ⟨"NAME".toList, [.text "*LIBL".toList]⟩]) := by
      refine .cons ?_ (.simple .given (.omitted rfl)) (.cons ?_ (.simple .given .given) .nil)
      · exact spells_cons (by decide) (by decide) spells_nil
      · refine Spells.perm ?_ (.swap ("type", Datum.text _) ("values", Datum.list _) [])
        exact spells_cons (by decide) (by decide) (spells_cons (by decide) (by decide) spells_nil)
    have hparts : EncodeAll parts
        [.qual [⟨"NAME".toList, []⟩, ⟨"NAME".toList, [.text "*LIBL".toList]⟩], .simple ⟨"DEC".toList, []⟩] := by
      refine .cons ?_ (.qual (.omitted trivial) hnames) (.cons ?_ (.simple .given .given) .nil)
      · exact spells_cons (by decide) (by decide) spells_nil
      · exact spells_cons (by decide) (by decide) (spells_cons (by decide) (by decide) spells_nil)
    refine ⟨_, _, _, _, rfl, .given, .omitted rfl, .elem (.omitted trivial) hparts, ?_⟩
    refine Spells.perm ?_ (List.reverse_perm _)
    exact spells_cons (by decide) (by decide)
      (spells_cons (by decide) (by decide) (spells_cons (by decide) (by decide) spells_nil))

end

end ControlLanguage
