import ControlLanguage.Text.Case

/-!
# Entries

A table from keys to values that remembers the order in which the keys were
first put in. Putting a key again replaces its value and keeps its place.
-/

namespace ControlLanguage

abbrev Entries (α : Type) := List (Text × α)

namespace Entries

variable {α : Type}

def insert (key : Text) (value : α) : Entries α → Entries α
  | [] => [(key, value)]
  | (k, v) :: es => if k = key then (k, value) :: es else (k, v) :: insert key value es

def get? (es : Entries α) (key : Text) : Option α := (es.find? (·.1 == key)).map (·.2)

def erase (key : Text) (es : Entries α) : Entries α := es.filter (·.1 != key)

/-- The table that results from putting in pairs one after the other. -/
def ofList (pairs : List (Text × α)) : Entries α :=
  pairs.foldl (fun es p => insert p.1 p.2 es) []

def upperKeys (es : Entries α) : Entries α := ofList (es.map fun p => (Text.upper p.1, p.2))

def lowerKeys (es : Entries α) : Entries α := ofList (es.map fun p => (Text.lower p.1, p.2))

theorem get?_map {β : Type} (f : α → β) (es : Entries α) (key : Text) :
    get? (es.map fun p => (p.1, f p.2)) key = (es.get? key).map f := by
  rw [get?, get?, List.find?_map, Option.map_map, Option.map_map]
  rfl

theorem get?_insert (key key' : Text) (value : α) (es : Entries α) :
    get? (insert key value es) key' = if key = key' then some value else get? es key' := by
  induction es with
  | nil =>
    by_cases h : key = key'
    · simp [insert, get?, h]
    · simp [insert, get?, h]
  | cons e es ih =>
    obtain ⟨k, v⟩ := e
    simp only [get?] at ih
    simp only [insert, get?]
    by_cases hk : k = key
    · subst hk
      by_cases h : k = key'
      · simp [h]
      · simp [h]
    · rw [if_neg hk]
      by_cases h : k = key'
      · subst h
        simp [Ne.symm hk]
      · simp [h, ih]

section
variable {es : Entries α} {pairs : List (Text × α)} {k : Text} {v : α}

theorem get?_eq_some_iff (hn : (es.map (·.1)).Nodup) : es.get? k = some v ↔ (k, v) ∈ es := by
  induction es with
  | nil => exact iff_of_false nofun nofun
  | cons e es ih =>
    rw [List.map_cons, List.nodup_cons] at hn
    by_cases hk : e.1 = k
    · subst hk
      have hv : (e.1, v) ∉ es := fun hv => hn.1 (List.mem_map.2 ⟨_, hv, rfl⟩)
      rw [get?, List.find?_cons_of_pos (by simp), List.mem_cons, or_iff_left hv, Option.map_some, Option.some.injEq,
        Prod.ext_iff, and_iff_right rfl, eq_comm]
    · rw [get?, List.find?_cons_of_neg (by simpa using hk), ← get?, ih hn.2, List.mem_cons,
        or_iff_right fun h => hk (congrArg Prod.fst h).symm]

/-- The order of the entries does not count if no key is there twice. -/
theorem get?_eq_of_perm {es' : Entries α} (h : es.Perm es') (hn : (es'.map (·.1)).Nodup) (k : Text) :
    es.get? k = es'.get? k := by
  have hn' : (es.map (·.1)).Nodup := (h.map _).nodup_iff.2 hn
  ext v
  rw [get?_eq_some_iff hn', get?_eq_some_iff hn, h.mem_iff]

theorem mem_of_mem_insert {e : Text × α} (h : e ∈ insert k v es) : e = (k, v) ∨ e ∈ es := by
  induction es with
  | nil => exact .inl (List.mem_singleton.1 h)
  | cons f es ih =>
    rw [insert] at h
    split at h
    · next hk => exact (List.mem_cons.1 h).imp (fun he => by rw [he, hk]) (List.mem_cons_of_mem f)
    · rcases List.mem_cons.1 h with rfl | h
      · exact .inr (List.mem_cons_self ..)
      · exact (ih h).imp_right (List.mem_cons_of_mem f)

theorem mem_keys_insert {key : Text} : key ∈ (insert k v es).map (·.1) ↔ key = k ∨ key ∈ es.map (·.1) := by
  induction es with
  | nil => rw [insert, List.map_cons, List.mem_cons]
  | cons f es ih =>
    rw [insert]
    split
    · next hk =>
      subst hk
      rw [List.map_cons, List.map_cons, List.mem_cons, ← or_assoc, or_self]
    · rw [List.map_cons, List.map_cons, List.mem_cons, List.mem_cons, ih, or_left_comm]

theorem nodup_insert (h : (es.map (·.1)).Nodup) : ((insert k v es).map (·.1)).Nodup := by
  induction es with
  | nil => exact List.nodup_cons.2 ⟨List.not_mem_nil, List.nodup_nil⟩
  | cons f es ih =>
    rw [List.map_cons, List.nodup_cons] at h
    rw [insert]
    split
    · exact List.nodup_cons.2 h
    · next hk =>
      refine List.nodup_cons.2 ⟨fun hf => ?_, ih h.2⟩
      exact (mem_keys_insert.1 hf).elim hk h.1

theorem insert_map {β : Type} (f : α → β) (k : Text) (v : α) (es : Entries α) :
    insert k (f v) (es.map fun p => (p.1, f p.2)) = (insert k v es).map fun p => (p.1, f p.2) := by
  induction es with
  | nil => rfl
  | cons e es ih =>
    rw [List.map_cons, insert, insert]
    split
    · rfl
    · rw [ih, List.map_cons]

theorem insert_of_not_mem (h : k ∉ es.map (·.1)) (v : α) : insert k v es = es ++ [(k, v)] := by
  induction es with
  | nil => rfl
  | cons e es ih =>
    rw [List.map_cons, List.mem_cons, not_or] at h
    rw [insert, if_neg (Ne.symm h.1), ih h.2]; rfl

/-! ### Putting in all of a list -/

theorem mem_of_mem_insertAll {e : Text × α} (h : e ∈ pairs.foldl (fun es p => insert p.1 p.2 es) es) :
    e ∈ es ∨ e ∈ pairs := by
  induction pairs generalizing es with
  | nil => exact .inl h
  | cons p ps ih =>
    rcases ih h with h | h
    · rcases mem_of_mem_insert h with rfl | h
      · exact .inr (List.mem_cons_self ..)
      · exact .inl h
    · exact .inr (List.mem_cons_of_mem p h)

theorem mem_keys_insertAll {key : Text} : key ∈ (pairs.foldl (fun es p => insert p.1 p.2 es) es).map (·.1) ↔
    key ∈ es.map (·.1) ∨ key ∈ pairs.map (·.1) := by
  induction pairs generalizing es with
  | nil => exact (or_iff_left List.not_mem_nil).symm
  | cons p ps ih =>
    rw [List.foldl_cons, ih, mem_keys_insert, List.map_cons, List.mem_cons, or_assoc, or_left_comm]

theorem insertAll_cons_of_not_mem (h : k ∉ pairs.map (·.1)) :
    pairs.foldl (fun es p => insert p.1 p.2 es) ((k, v) :: es) =
      (k, v) :: pairs.foldl (fun es p => insert p.1 p.2 es) es := by
  induction pairs generalizing es with
  | nil => rfl
  | cons p ps ih =>
    rw [List.map_cons, List.mem_cons, not_or] at h
    rw [List.foldl_cons, insert, if_neg h.1, ih h.2, List.foldl_cons]

theorem get?_insertAll_of_not_mem (h : k ∉ pairs.map (·.1)) :
    get? (pairs.foldl (fun es p => insert p.1 p.2 es) es) k = get? es k := by
  induction pairs generalizing es with
  | nil => rfl
  | cons p ps ih =>
    rw [List.map_cons, List.mem_cons, not_or] at h
    rw [List.foldl_cons, ih h.2, get?_insert, if_neg (Ne.symm h.1)]

theorem get?_insertAll (hn : (pairs.map (·.1)).Nodup) (h : (k, v) ∈ pairs) :
    get? (pairs.foldl (fun es p => insert p.1 p.2 es) es) k = some v := by
  induction pairs generalizing es with
  | nil => cases h
  | cons p ps ih =>
    obtain ⟨hp, hps⟩ := List.nodup_cons.mp hn
    rw [List.foldl_cons]
    rcases List.mem_cons.mp h with rfl | h
    · rw [get?_insertAll_of_not_mem hp, get?_insert, if_pos rfl]
    · exact ih hps h

/-- What is put in under another key does not count. -/
theorem get?_insertAll_erase {es' : Entries α} {key : Text} (hk : k ≠ key) (he : get? es k = get? es' k) :
    get? ((erase key pairs).foldl (fun es p => insert p.1 p.2 es) es) k =
      get? (pairs.foldl (fun es p => insert p.1 p.2 es) es') k := by
  induction pairs generalizing es es' with
  | nil => exact he
  | cons p ps ih =>
    rw [erase] at ih ⊢
    rw [List.foldl_cons]
    by_cases hp : p.1 = key
    · rw [List.filter_cons_of_neg (by simp [hp])]
      apply ih
      rw [get?_insert, if_neg (by rw [hp]; exact Ne.symm hk), he]
    · rw [List.filter_cons_of_pos (by simp [hp]), List.foldl_cons]
      apply ih
      rw [get?_insert, get?_insert, he]

theorem get?_ofList_erase (pairs : List (Text × α)) (key k : Text) :
    (ofList (erase key pairs)).get? k = if k = key then none else (ofList pairs).get? k := by
  split
  · next hk =>
    apply get?_insertAll_of_not_mem
    simp [erase, hk]
  · next hk => exact get?_insertAll_erase hk rfl

theorem mem_of_mem_ofList {e : Text × α} (h : e ∈ ofList pairs) : e ∈ pairs :=
  (mem_of_mem_insertAll h).resolve_left List.not_mem_nil

theorem mem_keys_ofList {key : Text} : key ∈ (ofList pairs).map (·.1) ↔ key ∈ pairs.map (·.1) :=
  mem_keys_insertAll.trans (or_iff_right List.not_mem_nil)

theorem ofList_cons_of_not_mem (h : k ∉ pairs.map (·.1)) : ofList ((k, v) :: pairs) = (k, v) :: ofList pairs :=
  insertAll_cons_of_not_mem h

theorem ofList_eq_self (h : (pairs.map (·.1)).Nodup) : ofList pairs = pairs := by
  induction pairs with
  | nil => rfl
  | cons p ps ih =>
    obtain ⟨hp, hps⟩ := List.nodup_cons.1 h
    rw [ofList_cons_of_not_mem hp, ih hps]

theorem ofList_map {β : Type} (f : α → β) (pairs : List (Text × α)) :
    ofList (pairs.map fun p => (p.1, f p.2)) = (ofList pairs).map fun p => (p.1, f p.2) := by
  suffices h : ∀ es : Entries α,
      (pairs.map fun p => (p.1, f p.2)).foldl (fun es p => insert p.1 p.2 es) (es.map fun p => (p.1, f p.2)) =
        (pairs.foldl (fun es p => insert p.1 p.2 es) es).map fun p => (p.1, f p.2) from h []
  intro es
  induction pairs generalizing es with
  | nil => rfl
  | cons p ps ih =>
    rw [List.map_cons, List.foldl_cons, List.foldl_cons, ← ih (insert p.1 p.2 es), ← insert_map f p.1 p.2 es]

theorem get?_ofList_concat (pairs : List (Text × α)) (k : Text) (v : α) (key : Text) :
    (ofList (pairs ++ [(k, v)])).get? key = if k = key then some v else (ofList pairs).get? key := by
  rw [ofList, List.foldl_append, List.foldl_cons, List.foldl_nil, get?_insert, ofList]

theorem lowerKeys_map {β : Type} (f : α → β) (es : Entries α) :
    lowerKeys (es.map fun p => (p.1, f p.2)) = (lowerKeys es).map fun p => (p.1, f p.2) := by
  rw [lowerKeys, List.map_map, lowerKeys, ← ofList_map f, List.map_map]
  rfl

theorem get?_ofList (hn : (pairs.map (·.1)).Nodup) (h : (k, v) ∈ pairs) : (ofList pairs).get? k = some v :=
  get?_insertAll hn h

end

end Entries

end ControlLanguage
