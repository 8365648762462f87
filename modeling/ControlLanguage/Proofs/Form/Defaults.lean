import ControlLanguage.Proofs.Form.Omitted

/-!
# Parameters at their default

A parameter that shows its default, as a text or taken apart, does not reach
the command as long as it is not touched. What is written for the default
and for its parts is the same, as texts are taken apart before they are
written. Simple values are the exception, since they lose the white space
around them: there the texts themselves are compared.
-/

namespace ControlLanguage

section
variable {s : Schema} {shape : Shape} {d : Text} {v : Form}

namespace Schema

theorem exists_write (hs : s.shape = some shape) (v : Form) : ∃ t, (s.write v).run.value = .ok t := by
  cases hr : s.isRepeated with
  | false => exact ⟨_, value_write_single hs hr⟩
  | true => exact ⟨_, value_write_repeated hs hr⟩

/-- A text is taken apart, or it is that of a single simple value and only loses the white space around it. -/
theorem read_cases (hs : s.shape = some shape) (hread : s.read d = .ok v) :
    s.isRepeated = true ∨ s.isSimple = false ∨ v = .leaf (Text.trim d) := by
  cases hr : s.isRepeated with
  | true => exact .inl rfl
  | false =>
    right
    simp only [read, hs, hr, Bool.false_eq_true, if_false, Except.ok.injEq] at hread
    cases shape with
    | simple l => exact .inr hread.symm
    | qual ls => left; rw [isSimple, hs]; rfl
    | elem ss => left; rw [isSimple, hs]; rfl

theorem value_write_read (hs : s.shape = some shape) (h : s.isRepeated = true ∨ s.isSimple = false)
    (hread : s.read d = .ok v) : (s.write v).run.value = (s.write (.leaf d)).run.value := by
  cases hr : s.isRepeated with
  | true =>
    simp only [read, hs, hr, if_true, Except.ok.injEq] at hread
    rw [value_write_repeated hs hr, value_write_repeated hs hr, ← hread]
    rfl
  | false =>
    have hsimple : shape.isSimple = false := by
      have := h.resolve_left (by simp [hr])
      rwa [isSimple, hs] at this
    simp only [read, hs, hr, Bool.false_eq_true, if_false, Except.ok.injEq] at hread
    rw [value_write_single hs hr, value_write_single hs hr, ← hread, Shape.value_write_read hsimple]

end Schema

/-! ## One parameter -/

namespace CommandForm

theorem folded_trim (t : Text) : folded (Text.trim t) = folded t := by
  rw [folded, Text.words_trim, folded]

theorem plainValue_eq_self (h : s.isRepeated = true ∨ s.isSimple = false) (v : Form) : plainValue s v = v := by
  unfold plainValue
  split
  · apply if_neg
    rcases h with h | h
    · simp [h]
    · simp [h]
  · rfl

theorem isDefault_leaf {t text written : Text} (h : folded t = folded d) :
    isDefault (.leaf t) text d written = true := by
  simp [isDefault, h]

theorem isDefault_written (v : Form) (text d : Text) : isDefault v text d text = true := by
  simp [isDefault]

theorem plainValue_of_read (hs : s.shape = some shape) (hv : s.read d = .ok v ∨ v = .leaf d) :
    plainValue s v = v := by
  rcases hv with hread | rfl
  · rcases Schema.read_cases hs hread with hr | hsimple | rfl
    · exact plainValue_eq_self (.inl hr) v
    · exact plainValue_eq_self (.inr hsimple) v
    · rfl
  · rfl

theorem isDefault_of_read {text written : Text} (hs : s.shape = some shape) (hv : s.read d = .ok v ∨ v = .leaf d)
    (htext : (s.write v).run.value = .ok text) (hwritten : (s.write (.leaf d)).run.value = .ok written) :
    isDefault v text d written = true := by
  have hsame : (s.write v).run.value = (s.write (.leaf d)).run.value → isDefault v text d written = true := by
    intro he
    rw [he, hwritten, Except.ok.injEq] at htext
    rw [htext]
    exact isDefault_written v text d
  rcases hv with hread | rfl
  · rcases Schema.read_cases hs hread with hr | hsimple | rfl
    · exact hsame (Schema.value_write_read hs (.inl hr) hread)
    · exact hsame (Schema.value_write_read hs (.inr hsimple) hread)
    · exact isDefault_leaf (folded_trim d)
  · exact hsame rfl

variable {values values' : Entries Form} {defaults : Entries Text} {touched : List Text} {ss : List Schema}

theorem parameter?_of_default (hs : s.shape = some shape)
    (hd : (defaults.get? s.keyword).or s.defaultText? = some d)
    (ht : s.keyword ∉ touched) (hget : values.get? s.keyword = some v) (hv : s.read d = .ok v ∨ v = .leaf d) :
    (parameter? values defaults touched s).run.value = .ok none := by
  cases he : v.isEmpty with
  | true =>
    apply parameter?_blank
    rw [hget, Option.filter_some, if_neg (by simp [he])]
  | false =>
    have hfilter : (values.get? s.keyword).filter (!·.isEmpty) = some v := by
      rw [hget, Option.filter_some, if_pos (by simp [he])]
    have htouched : touched.contains s.keyword = false := by simpa using ht
    obtain ⟨text, htext⟩ := Schema.exists_write hs v
    obtain ⟨written, hwritten⟩ := Schema.exists_write hs (.leaf d)
    simp only [parameter?, hfilter, plainValue_of_read hs hv, hd, htouched]
    rw [Logged.value_run_bind htext]
    cases text.isEmpty with
    | true => rfl
    | false =>
      simp only [Bool.false_eq_true, if_false]
      rw [Logged.value_run_bind hwritten, isDefault_of_read hs hv htext hwritten]
      rfl

/-! ## All parameters -/

theorem parameters_congr (h : ∀ s ∈ ss, values.get? s.keyword = values'.get? s.keyword) :
    parameters values defaults touched ss = parameters values' defaults touched ss := by
  induction ss with
  | nil => rfl
  | cons s ss ih =>
    obtain ⟨hs, hss⟩ := List.forall_mem_cons.mp h
    rw [parameters, parameters, parameter?, parameter?, hs, ih hss]

/-- A form without what it shows for a keyword. -/
def without (f : CommandForm) (keyword : Text) : CommandForm :=
  { f with values := f.values.filter fun p => Text.upper p.1 != keyword }

theorem get?_without (f : CommandForm) (keyword k : Text) :
    (f.without keyword).values.upperKeys.get? k = if k = keyword then none else f.values.upperKeys.get? k := by
  have hkeys : (f.without keyword).values.upperKeys =
      Entries.ofList (Entries.erase keyword (f.values.map fun p => (Text.upper p.1, p.2))) := by
    rw [Entries.upperKeys, Entries.erase, List.filter_map]; rfl
  rw [hkeys, Entries.get?_ofList_erase]; rfl

/-- A parameter that shows its default and is not touched gives no text, whatever the default is: the command is the
one that is written if nothing is shown for the parameter. -/
theorem write_untouched_default {f : CommandForm} {schemas : List Schema} (hmem : s ∈ schemas)
    (hkeys : (schemas.map (·.keyword)).Nodup) (hs : s.shape = some shape)
    (hd : (f.defaults.upperKeys.get? s.keyword).or s.defaultText? = some d)
    (ht : s.keyword ∉ f.touched.map Text.upper) (hget : f.values.upperKeys.get? s.keyword = some v)
    (hv : s.read d = .ok v ∨ v = .leaf d) :
    (parameter? f.values.upperKeys f.defaults.upperKeys (f.touched.map Text.upper) s).run.value = .ok none ∧
      (f.write schemas).run.value = ((f.without s.keyword).write schemas).run.value := by
  have hnone := parameter?_of_default hs hd ht hget hv
  refine ⟨hnone, ?_⟩
  obtain ⟨pre, post, rfl⟩ := List.append_of_mem hmem
  have hothers : ∀ p ∈ pre ++ post, f.values.upperKeys.get? p.keyword =
      (f.without s.keyword).values.upperKeys.get? p.keyword := by
    intro p hp
    have hne : p.keyword ≠ s.keyword := by
      rw [List.map_append, List.map_cons, List.perm_middle.nodup_iff, ← List.map_append] at hkeys
      intro he
      exact (List.nodup_cons.mp hkeys).1 (he ▸ List.mem_map_of_mem hp)
    rw [get?_without, if_neg hne]
  have hwithout : (parameter? (f.without s.keyword).values.upperKeys f.defaults.upperKeys (f.touched.map Text.upper)
      s).run.value = .ok none := by
    apply parameter?_blank
    rw [get?_without, if_pos rfl]; rfl
  refine Logged.value_run_bind_congr ?_ fun _ => rfl
  calc (parameters f.values.upperKeys f.defaults.upperKeys (f.touched.map Text.upper) (pre ++ s :: post)).run.value
    _ = (parameters f.values.upperKeys f.defaults.upperKeys (f.touched.map Text.upper) (pre ++ post)).run.value :=
        parameters_of_none hnone
    _ = (parameters (f.without s.keyword).values.upperKeys f.defaults.upperKeys (f.touched.map Text.upper)
          (pre ++ post)).run.value := by rw [parameters_congr hothers]
    _ = (parameters (f.without s.keyword).values.upperKeys f.defaults.upperKeys (f.touched.map Text.upper)
          (pre ++ s :: post)).run.value := (parameters_of_none hwithout).symm

/-- Also a default that is no proper value of its parameter, here a group that is not closed, is left out. -/
theorem write_untouched_default_open :
    let leaf : Leaf := ⟨[], []⟩
    let log : Schema := ⟨"LOG".toList, some (.elem [.simple leaf, .elem [.simple leaf, .simple leaf]]), 1,
      .text "4  (A it's".toList, by decide, by decide, by intro s hs; cases hs; rfl⟩
    let text : Schema := ⟨"TEXT".toList, some (.simple leaf), 1, .null, by decide, by decide, by
      intro s hs; cases hs; rfl⟩
    let f : CommandForm := {
      name := "CHG".toList
      values := [("log".toList, .parts [.leaf "4".toList, .parts [.leaf "A".toList, .leaf "it's".toList]]),
        ("text".toList, .leaf "x".toList)] }
    (f.write [log, text]).run.value = .ok "CHG TEXT(x)".toList := by
  intro leaf log text f
  have hread : log.read "4  (A it's".toList =
      .ok (.parts [.leaf "4".toList, .parts [.leaf "A".toList, .leaf "it's".toList]]) := by with_unfolding_all rfl
  have hwithout := @write_untouched_default log _ "4  (A it's".toList _ f [log, text] (by simp) (by decide) rfl rfl
    (by decide) rfl (.inl hread)
  rw [hwithout.2]
  with_unfolding_all rfl

end CommandForm

end

end ControlLanguage
