import ControlLanguage.Proofs.Form.Parse

/-!
# Forms written and read

A filled-in form is written as a command text, and the text is read as a
command whose parameters have the settled values of the form.
-/

namespace ControlLanguage

/-! ## Writing -/

structure WrittenParameter where
  schema : Schema
  text : Text
  form : Form

namespace CommandForm

def value? (f : CommandForm) (s : Schema) : Option Form := (f.values.upperKeys.get? s.keyword).filter (!·.isEmpty)

section
variable {f : CommandForm} {s : Schema} {schemas : List Schema} {v : Form} {values : Entries Form}
  {defaults : Entries Text} {touched : List Text}

theorem plainValue_of_fits (h : s.Fits v) : plainValue s v = v := by
  have hsimple : ∀ u, v = .parts [u] → (s.isSimple && !s.isRepeated) = false := by
    intro u hu
    cases h with
    | repeated _ hrep => rw [hrep, Bool.not_true, Bool.and_false]
    | single hshape _ hv =>
      rw [Schema.isSimple, hshape]
      cases hv with
      | simple => cases hu
      | _ => rfl
  unfold plainValue
  split
  · next u => rw [if_neg (by simp [hsimple u rfl])]
  · rfl

theorem parameter?_blank (h : (values.get? s.keyword).filter (!·.isEmpty) = none) :
    (parameter? values defaults touched s).run.value = .ok none := by
  simp only [parameter?, h]
  rfl

theorem parameter?_written (h : (values.get? s.keyword).filter (!·.isEmpty) = some v) (hv : s.Fits v)
    (ht : touched.contains s.keyword = true) : ∃ t, IsValueText t ∧ s.read t = .ok (s.settle v) ∧
      (parameter? values defaults touched s).run.value = .ok (some (parameterText s.keyword t)) := by
  have hne : v.isEmpty = false := by
    simpa using (Option.filter_eq_some_iff.mp h).2
  obtain ⟨t, hwrite, htext, hread⟩ := hv.exists_text hne
  refine ⟨t, htext, hread, ?_⟩
  have hnonempty : t.isEmpty = false := List.isEmpty_eq_false_iff.mpr htext.ne_nil
  have hwritten : s.keyword ++ '(' :: t ++ [')'] = parameterText s.keyword t := List.append_assoc ..
  simp only [parameter?, h, plainValue_of_fits hv]
  rw [Logged.value_run_bind hwrite, if_neg (by simp [hnonempty]), if_pos ht, hwritten]
  rfl

/-- What is known of the parameters that a form writes, each in the place that the definition gives it. -/
structure Writes (values : Entries Form) (schemas : List Schema) (xs : List WrittenParameter) : Prop where
  isValueText : ∀ x ∈ xs, IsValueText x.text
  read : ∀ x ∈ xs, x.schema.read x.text = .ok x.form
  sublist : (xs.map (·.schema)).Sublist schemas
  settled : xs.map (fun x => (x.schema.keyword, x.form)) = schemas.filterMap fun s =>
    ((values.get? s.keyword).filter (!·.isEmpty)).map fun v => (s.keyword, s.settle v)

theorem exists_writes (ht : ∀ s ∈ schemas, touched.contains s.keyword = true)
    (hf : ∀ s ∈ schemas, ∀ v, (values.get? s.keyword).filter (!·.isEmpty) = some v → s.Fits v) :
    ∃ xs, Writes values schemas xs ∧ (parameters values defaults touched schemas).run.value =
      .ok (xs.map fun x => parameterText x.schema.keyword x.text) := by
  induction schemas with
  | nil => exact ⟨[], ⟨by simp, by simp, .slnil, rfl⟩, rfl⟩
  | cons s ss ih =>
    obtain ⟨ht, hts⟩ := List.forall_mem_cons.mp ht
    obtain ⟨hf, hfs⟩ := List.forall_mem_cons.mp hf
    obtain ⟨xs, hxs, hrest⟩ := ih hts hfs
    rw [parameters]
    cases hv : (values.get? s.keyword).filter (!·.isEmpty) with
    | none =>
      refine ⟨xs, ⟨hxs.isValueText, hxs.read, hxs.sublist.cons s, ?_⟩, ?_⟩
      · rw [List.filterMap_cons, hv, hxs.settled]; rfl
      · rw [Logged.value_run_bind (parameter?_blank hv), Logged.value_run_bind hrest]; rfl
    | some v =>
      obtain ⟨t, htext, hread, hwrite⟩ := parameter?_written hv (hf v hv) ht
      refine ⟨⟨s, t, s.settle v⟩ :: xs, ⟨?_, ?_, hxs.sublist.cons_cons s, ?_⟩, ?_⟩
      · exact List.forall_mem_cons.mpr ⟨htext, hxs.isValueText⟩
      · exact List.forall_mem_cons.mpr ⟨hread, hxs.read⟩
      · rw [List.filterMap_cons, hv, List.map_cons, hxs.settled]; rfl
      · rw [Logged.value_run_bind hwrite, Logged.value_run_bind hrest]; rfl

end

end CommandForm

/-! ## Reading -/

theorem Schema.get?_byKeyword {s : Schema} {schemas : List Schema} (hn : (schemas.map (·.keyword)).Nodup)
    (hs : s ∈ schemas) : (byKeyword schemas).get? s.keyword = some s := by
  apply Entries.get?_ofList
  · rwa [List.map_map]
  · exact List.mem_map_of_mem hs

theorem Call.readBindings_written {schemas : Entries Schema} {name : Text} {values : Entries Form}
    {xs : List WrittenParameter} {bs : List (Binding Value)}
    (hbs : bs.map (fun b => (b.name, b.value.text)) = xs.map fun x => (x.schema.keyword, x.text))
    (hk : ∀ x ∈ xs, Word.isName x.schema.keyword = true ∧ x.schema.keyword.upper = x.schema.keyword)
    (hs : ∀ x ∈ xs, schemas.get? x.schema.keyword = some x.schema)
    (hr : ∀ x ∈ xs, x.schema.read x.text = .ok x.form)
    (hn : (values.map (·.1) ++ xs.map (·.schema.keyword)).Nodup) :
    (readBindings schemas (fun v => some v.text) name values bs).run.value =
      .ok (values ++ xs.map fun x => (x.schema.keyword, x.form)) := by
  induction xs generalizing values bs with
  | nil =>
    rw [List.map_nil, List.map_eq_nil_iff] at hbs
    rw [hbs, readBindings, List.map_nil, List.append_nil]; rfl
  | cons x xs ih =>
    obtain ⟨b, bs, rfl, hb, hbs⟩ := List.map_eq_cons_iff.mp hbs
    obtain ⟨hname, htext⟩ := Prod.mk.inj hb
    obtain ⟨⟨hkx, hux⟩, hk⟩ := List.forall_mem_cons.mp hk
    obtain ⟨hsx, hs⟩ := List.forall_mem_cons.mp hs
    obtain ⟨hrx, hr⟩ := List.forall_mem_cons.mp hr
    have hfresh : x.schema.keyword ∉ values.map (·.1) := by
      rw [List.map_cons, List.nodup_append] at hn
      intro hmem
      exact hn.2.2 _ hmem _ (List.mem_cons_self ..) rfl
    have hpositional : b.isPositional = false := by
      rw [Binding.isPositional, hname, Word.not_isPlaceholder_of_isName hkx]
    have hrest : (readBindings schemas (fun v => some v.text) name
        (values ++ [(x.schema.keyword, x.form)]) bs).run.value =
        _ := ih hbs hk hs hr (by simpa using hn)
    unfold readBindings
    simp only [hpositional, hname, hux, hsx, htext, hrx, Entries.insert_of_not_mem hfresh, Bool.false_eq_true,
      if_false, hrest]
    simp

/-! ## The name and the label -/

/-- An upper case that has only the characters of `*LIBL` is as long as the text: no letter expands to them. -/
theorem Text.length_of_upper {t : Text} (h : ∀ u ∈ upper t, u ∈ "*LIBL".toList) : t.length = (upper t).length := by
  induction t with
  | nil => rfl
  | cons c t ih =>
    rw [upper_cons] at h ⊢
    obtain ⟨u, hu⟩ := exists_upperChar_eq_singleton fun u hu => h u (List.mem_append_left _ hu)
    rw [hu, List.singleton_append, List.length_cons, List.length_cons]
    rw [← ih fun u hu => h u (List.mem_append_right _ hu)]

namespace CommandForm

theorem isName_drop_libraryListPrefix {name : Text} (h : Word.isCommand name = true)
    (hp : libraryListPrefix.isPrefixOf name.upper = true) :
    Word.isName (name.drop libraryListPrefix.length) = true := by
  obtain ⟨rest, hrest⟩ := List.isPrefixOf_iff_prefix.mp hp
  have hstar : '*' ∈ name.upper := by
    rw [← hrest]; exact List.mem_append_left _ (by decide)
  rcases Word.isCommand_cases h with h | ⟨library, n, rfl, -, hn, hl⟩
  · exact absurd (Word.isUpperName_of_mem_upper h hstar) (by decide)
  · have hslash : '/' ∉ library.upper := by
      rcases hl with hl | hl
      · exact Word.slash_not_mem (Text.upper_of_continuesName (Word.all_of_isName hl)).2.1
      · exact (Word.upper_symbolic hl).2
    have hsplit : Word.splitSlash ("*LIBL".toList ++ '/' :: rest) = ("*LIBL".toList, some rest) :=
      Word.splitSlash_append (by decide)
    have hlibrary : library.upper = "*LIBL".toList := by
      have heq : "*LIBL".toList ++ '/' :: rest = library.upper ++ '/' :: Text.upper n := by
        rw [← Word.upper_qualified]; exact hrest
      rw [heq, Word.splitSlash_append hslash] at hsplit
      exact congrArg Prod.fst hsplit
    have hlength : library.length = 5 := by
      rw [Text.length_of_upper (by rw [hlibrary]; simp), hlibrary]; rfl
    have hdrop : (library ++ '/' :: n).drop libraryListPrefix.length = n := by
      rw [List.append_cons]
      exact List.drop_left' (by rw [List.length_append, hlength]; rfl)
    rw [hdrop]; exact hn

theorem isCommand_shownName {name : Text} (h : Word.isCommand name = true) :
    Word.isCommand (shownName name) = true := by
  have hspace := Word.not_isSpace_of_isCommand h
  have htrim : Text.trim name = name := by
    apply trim_eq_self
    · intro c hc; exact hspace c (List.mem_of_head? hc)
    · intro c hc; exact hspace c (List.mem_of_getLast? hc)
  unfold shownName
  simp only [htrim]
  by_cases hp : libraryListPrefix.isPrefixOf name.upper = true
  · rw [if_pos hp]
    exact Word.isCommand_of_isName (isName_drop_libraryListPrefix h hp)
  · rw [if_neg hp]; exact h

theorem takeLabel_shownLabel {label : Option Text} {name : Text} {texts : List Text}
    (hname : Word.isCommand name = true)
    (hl : ∀ l, label = some l → Text.isBlankText l = true ∨ Word.isSimpleName (Text.trim l) = true) :
    ∃ shown, takeLabel (Text.unwords (shownLabel label ++ name :: texts)) =
    (shown, Text.unwords (name :: texts)) := by
  have hspace := Word.not_isSpace_of_isCommand hname
  have hne := Word.ne_nil_of_isCommand hname
  have hplain : takeLabel (Text.unwords (name :: texts)) = (none, Text.unwords (name :: texts)) := by
    rw [unwords_cons]
    apply takeLabel_of_not_mem hne hspace (Word.not_mem_of_isCommand hname (by decide) (by decide) (by decide))
    cases texts with
    | nil => exact .inl rfl
    | cons => exact .inr ⟨_, rfl⟩
  cases label with
  | none => exact ⟨none, hplain⟩
  | some l =>
    by_cases hb : Text.isBlankText l = true
    · rw [show shownLabel (some l) = [] from if_pos hb]
      exact ⟨none, hplain⟩
    · rw [show shownLabel (some l) = [(Text.trim l).upper ++ [':']] from if_neg hb]
      have hsimple := (hl l rfl).resolve_left hb
      have htrim : Text.trimLeft (Text.unwords (name :: texts)) = Text.unwords (name :: texts) := by
        rw [unwords_cons]
        exact trimLeft_append hne hspace _
      refine ⟨_, Eq.trans ?_ (takeLabel_label (Word.isSimpleName_upper hsimple).1 1 htrim)⟩
      rw [List.singleton_append, unwords_cons_cons, List.append_assoc]; rfl

/-- What a form says is what is read from the command that it writes, with every value settled. -/
theorem forms_write {f : CommandForm} {schemas : List Schema} (hname : Word.isCommand f.name = true)
    (hlabel : ∀ l, f.label = some l → Text.isBlankText l = true ∨ Word.isSimpleName (Text.trim l) = true)
    (hk : ∀ s ∈ schemas, Word.isName s.keyword = true ∧ s.keyword.upper = s.keyword)
    (hn : (schemas.map (·.keyword)).Nodup) (ht : ∀ s ∈ schemas, s.keyword ∈ f.touched.map Text.upper)
    (hf : ∀ s ∈ schemas, ∀ v, f.value? s = some v → s.Fits v) :
    ∃ text c, (f.write schemas).run.value = .ok text ∧ Command.parse text = .ok c ∧
      (c.forms (Schema.byKeyword schemas)).run.value =
        .ok (schemas.filterMap fun s => (f.value? s).map fun v => (s.keyword, s.settle v)) := by
  obtain ⟨xs, hxs, hwrite⟩ : ∃ xs, Writes f.values.upperKeys schemas xs ∧
      (parameters f.values.upperKeys f.defaults.upperKeys (f.touched.map Text.upper) schemas).run.value =
        .ok (xs.map fun x => parameterText x.schema.keyword x.text) :=
    exists_writes (fun s hs => List.contains_iff_mem.mpr (ht s hs)) hf
  have hmem : ∀ x ∈ xs, x.schema ∈ schemas := fun x hx => hxs.sublist.subset (List.mem_map_of_mem hx)
  have hparameters : ∀ p ∈ xs.map fun x => (x.schema.keyword, x.text),
      Word.isName p.1 = true ∧ IsValueText p.2 := by
    intro p hp
    obtain ⟨x, hx, rfl⟩ := List.mem_map.mp hp
    exact ⟨(hk _ (hmem x hx)).1, hxs.isValueText x hx⟩
  have hcommand := isCommand_shownName hname
  obtain ⟨shown, htake⟩ : ∃ shown, takeLabel (Text.unwords (shownLabel f.label ++ shownName f.name ::
      xs.map fun x => parameterText x.schema.keyword x.text)) = (shown, _) := takeLabel_shownLabel hcommand hlabel
  rw [unwords_cons (shownName f.name), List.flatMap_map] at htake
  obtain ⟨c, hparse, hbindings⟩ :=
    Command.parse_parameters hcommand hparameters (by rw [List.flatMap_map]; exact htake)
  refine ⟨_, c, Logged.value_run_bind hwrite, hparse, ?_⟩
  have htexts : c.bindings.map (fun b => (b.name, b.value.text)) = xs.map fun x => (x.schema.keyword, x.text) := by
    rw [hbindings, List.map_map]
    exact List.map_congr_left fun x hx => by rw [Function.comp, (hk _ (hmem x hx)).2]
  have hkeywords : (xs.map (·.schema.keyword)).Nodup := by
    have := (hxs.sublist.map (·.keyword)).nodup hn
    rwa [List.map_map] at this
  have hread : (c.forms (Schema.byKeyword schemas)).run.value =
      .ok ([] ++ xs.map fun x => (x.schema.keyword, x.form)) := by
    apply Call.readBindings_written htexts
    · intro x hx; exact hk _ (hmem x hx)
    · intro x hx; exact Schema.get?_byKeyword hn (hmem x hx)
    · exact hxs.read
    · exact hkeywords
  exact hread.trans (congrArg _ hxs.settled)

theorem forms_write_blanks :
    let leaf : Leaf := ⟨[], []⟩
    let file : Schema := ⟨"FILE".toList, some (.qual [leaf, leaf]), 1, .null, by decide, by decide, by
      intro s hs; cases hs; rfl⟩
    let text : Schema := ⟨"TEXT".toList, some (.simple leaf), 1, .null, by decide, by decide, by
      intro s hs; cases hs; rfl⟩
    let log : Schema :=
      ⟨"LOG".toList, some (.elem ([leaf, leaf, leaf].map .simple)), 1, .null, by decide, by decide, by
      intro s hs; cases hs; rfl⟩
    let user : Schema := ⟨"USER".toList, some (.simple leaf), 2, .null, by decide, by decide, by
      intro s hs; cases hs; rfl⟩
    let f : CommandForm := {
      name := "*libl/chg".toList
      values := [("file".toList, .parts (["a".toList, "b".toList].map .leaf)), ("text".toList, .leaf "it's".toList),
        ("log".toList, .parts ([[], "1".toList, [' ']].map .leaf)),
        ("user".toList, .parts [.leaf "x".toList, .leaf [], .leaf "y z".toList])]
      touched := ["file".toList, "text".toList, "log".toList, "user".toList] }
    ∃ t c, (f.write [file, text, log, user]).run.value = .ok t ∧ Command.parse t = .ok c ∧
      (c.forms (Schema.byKeyword [file, text, log, user])).run.value =
        .ok [("FILE".toList, .parts [.leaf "a".toList, .leaf "b".toList]), ("TEXT".toList, .leaf "'it''s'".toList),
          ("LOG".toList, .parts [.leaf "*N".toList, .leaf "1".toList, .leaf []]),
          ("USER".toList, .parts [.leaf "x".toList, .leaf "'y z'".toList])] := by
  intro leaf file text log user f
  have htakes : ∀ t ∈ [[], [' '], "1".toList, "a".toList, "b".toList, "x".toList, "it's".toList, "y z".toList],
      leaf.Takes t := by
    unfold Leaf.Takes
    with_unfolding_all decide
  have hfits : ∀ s ∈ [file, text, log, user], ∀ v, f.value? s = some v → s.Fits v := by
    intro s hs v hv
    simp only [List.mem_cons, List.not_mem_nil, or_false] at hs
    rcases hs with rfl | rfl | rfl | rfl
    · obtain rfl := Option.some.inj (hv.symm.trans (show f.value? file = some _ from rfl))
      exact .single rfl rfl (.qual (.cons (htakes _ (by decide)) (.cons (htakes _ (by decide)) .nil)) (by decide))
    · obtain rfl := Option.some.inj (hv.symm.trans (show f.value? text = some _ from rfl))
      exact .single rfl rfl (.simple (htakes _ (by decide)))
    · obtain rfl := Option.some.inj (hv.symm.trans (show f.value? log = some _ from rfl))
      exact .single rfl rfl (.elem (.cons (htakes _ (by decide)) (.cons (htakes _ (by decide))
        (.cons (htakes _ (by decide)) .nil))))
    · obtain rfl := Option.some.inj (hv.symm.trans (show f.value? user = some _ from rfl))
      refine .repeated rfl rfl rfl fun v hv _ => ?_
      simp only [List.mem_cons, List.not_mem_nil, or_false] at hv
      rcases hv with rfl | rfl | rfl
      · exact .simple (htakes _ (by decide))
      · exact .simple (htakes _ (by decide))
      · exact .simple (htakes _ (by decide))
  obtain ⟨t, c, hwrite, hparse, hforms⟩ :=
    @forms_write f [file, text, log, user] (by decide) (by simp [f]) (by decide)
    (by decide) (by decide) hfits
  refine ⟨t, c, hwrite, hparse, hforms.trans ?_⟩
  with_unfolding_all rfl

end CommandForm

end ControlLanguage
