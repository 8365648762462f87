import ControlLanguage.Proofs.Lines.Units
import ControlLanguage.Proofs.Spelling.Bindings

/-!
# Units as a spelling

The units of a command with single blanks between them are its canonical
text, but for the blanks next to the parentheses of wrapped expressions.
Spelled without those, the tokens are the units.
-/

namespace ControlLanguage

open Token

def trimSpaces (ts : List Token) : List Token := Value.dropTrailingSpaces (ts.dropWhile Token.isSpace)

/-! ## Trimming -/

section
variable {t : Token} {ts sp : List Token}

theorem exists_trimSpaces (ts : List Token) : ∃ sp sp', ts = sp ++ (trimSpaces ts ++ sp') ∧
    (∀ t ∈ sp, t.isSpace = true) ∧ ∀ t ∈ sp', t.isSpace = true := by
  obtain ⟨sp, hs, hsp⟩ := exists_dropWhile_spaces ts
  obtain ⟨sp', hs', hsp'⟩ := exists_dropTrailingSpaces (ts.dropWhile Token.isSpace)
  refine ⟨sp, sp', ?_, hsp, hsp'⟩
  rw [trimSpaces, ← hs', ← hs]

theorem head?_trimSpaces (h : (trimSpaces ts).head? = some t) : t.isSpace = false := by
  obtain ⟨sp, hs, -⟩ := exists_dropTrailingSpaces (ts.dropWhile Token.isSpace)
  have hhead : (ts.dropWhile Token.isSpace).head? = some t := by
    rw [hs, List.head?_append]
    rw [trimSpaces] at h
    rw [h]; rfl
  have := List.head?_dropWhile_not Token.isSpace ts
  rw [hhead] at this
  simpa using this

theorem tidying_trimSpaces : Tidying trimSpaces where
  balanced {ts} h := by
    obtain ⟨sp, sp', hs, hsp, hsp'⟩ := exists_trimSpaces ts
    rw [hs, Balanced, openAfter_append, openAfter_spaces hsp] at h
    exact Balanced.of_spaces h hsp'
  reads {ts rest} rest' h := by
    obtain ⟨sp, sp', hs, hsp, hsp'⟩ := exists_trimSpaces ts
    rw [hs] at h
    refine (reads_append.mp (reads_append.mp h).2).1.congr (replaces_of_delimited (by simp) rfl) ?_
    exact fun _ => getLast?_dropTrailingSpaces
  solid_eq ts := by
    obtain ⟨sp, sp', hs, hsp, hsp'⟩ := exists_trimSpaces ts
    conv_rhs => rw [hs, solid_append, solid_append, solid_spaces hsp, solid_spaces hsp']
    rw [List.append_nil]; rfl
  subset {ts} t ht := by
    obtain ⟨sp, sp', hs, -, -⟩ := exists_trimSpaces ts
    rw [hs]
    exact List.mem_append_right _ (List.mem_append_left _ ht)

theorem tokenRuns_space (h : t.isSpace = true) (ts : List Token) : tokenRuns (t :: ts) = tokenRuns ts := by
  rw [tokenRuns, if_pos h]

theorem tokenRuns_spaces_append (h : ∀ t ∈ sp, t.isSpace = true) (ts : List Token) :
    tokenRuns (sp ++ ts) = tokenRuns ts := by
  induction sp with
  | nil => rfl
  | cons t sp ih =>
    rw [List.cons_append, tokenRuns_space (h t (List.mem_cons_self ..))]
    exact ih fun u hu => h u (List.mem_cons_of_mem _ hu)

theorem tokenRuns_append_spaces (h : ∀ t ∈ sp, t.isSpace = true) (ts : List Token) :
    tokenRuns (ts ++ sp) = tokenRuns ts := by
  induction ts with
  | nil =>
    have := tokenRuns_spaces_append h []
    rwa [List.append_nil] at this
  | cons t ts ih =>
    have hhead : (ts ++ sp).head?.all (·.isSpace) = ts.head?.all (·.isSpace) := by
      cases ts with
      | cons => rfl
      | nil =>
        cases sp with
        | nil => rfl
        | cons s sp => exact h s (List.mem_cons_self ..)
    rw [List.cons_append, tokenRuns, tokenRuns, ih, hhead]

theorem tokenRuns_trimSpaces (ts : List Token) : tokenRuns (trimSpaces ts) = tokenRuns ts := by
  obtain ⟨sp, sp', hs, hsp, hsp'⟩ := exists_trimSpaces ts
  conv_rhs => rw [hs, tokenRuns_spaces_append hsp, tokenRuns_append_spaces hsp']

theorem unitsOfExpression_inside (wrapped : Bool) (ts : List Token) :
    unitsOfExpression (inside trimSpaces wrapped ts) wrapped = unitsOfExpression ts wrapped := by
  cases wrapped with
  | false => rfl
  | true =>
    rw [show inside trimSpaces true ts = trimSpaces ts from rfl, unitsOfExpression, tokenRuns_trimSpaces]; rfl

theorem tokenRuns_map_unplaced (ts : List Token) :
    tokenRuns (ts.map unplaced) = (tokenRuns ts).map (·.map unplaced) := by
  induction ts with
  | nil => rfl
  | cons t ts ih =>
    have hhead : (ts.map unplaced).head?.all (·.isSpace) = ts.head?.all (·.isSpace) := by
      cases ts <;> rfl
    rw [List.map_cons, tokenRuns, tokenRuns, unplaced_isSpace, hhead, ih]
    split
    · rfl
    · split
      · rfl
      · cases tokenRuns ts <;> rfl

theorem unitsOfExpression_unplacing (wrapped : Bool) (ts : List Token) :
    unitsOfExpression (unplacing wrapped ts) wrapped = unitsOfExpression ts wrapped := by
  have hjoin : (joinTokens ∘ fun run : List Token => run.map unplaced) = joinTokens := by
    funext run
    exact List.flatMap_map ..
  rw [unitsOfExpression, unplacing, tokenRuns_map_unplaced, List.map_map, hjoin]; rfl

end

/-! ## Words -/

theorem unwords_append {a b : List Text} (ha : a ≠ []) (hb : b ≠ []) :
    Text.unwords (a ++ b) = Text.unwords a ++ ' ' :: Text.unwords b := by
  obtain ⟨t, ts, rfl⟩ := List.exists_cons_of_ne_nil ha
  obtain ⟨u, us, rfl⟩ := List.exists_cons_of_ne_nil hb
  rw [List.cons_append, unwords_cons, unwords_cons, List.flatMap_append, cons_unwords, List.append_assoc]

theorem unwords_closeUnits (closing first : Text) (us : List Text) :
    Text.unwords (closeUnits closing first us) = Text.unwords (first :: us) ++ closing := by
  induction us generalizing first with
  | nil => simp [closeUnits, Text.unwords]
  | cons u us ih =>
    have hne : closeUnits closing u us ≠ [] := by cases us <;> exact List.cons_ne_nil _ _
    rw [closeUnits, ← List.singleton_append, unwords_append (List.cons_ne_nil _ _) hne, ih,
      show first :: u :: us = [first] ++ (u :: us) from rfl,
      unwords_append (List.cons_ne_nil _ _) (List.cons_ne_nil _ _), List.append_assoc]
    rfl

theorem unwords_encloseUnits (opening closing : Text) (us : List Text) :
    Text.unwords (encloseUnits opening closing us) = opening ++ Text.unwords us ++ closing := by
  cases us with
  | nil => simp [encloseUnits, Text.unwords]
  | cons u us => rw [encloseUnits, unwords_closeUnits, unwords_cons, unwords_cons, List.append_assoc opening]

theorem encloseUnits_ne_nil (opening closing : Text) (us : List Text) : encloseUnits opening closing us ≠ [] := by
  cases us with
  | nil => exact List.cons_ne_nil _ _
  | cons u us => cases us <;> exact List.cons_ne_nil _ _

theorem tokenRuns_ne_nil {t : Token} (h : t.isSpace = false) (ts : List Token) : tokenRuns (t :: ts) ≠ [] := by
  rw [tokenRuns, if_neg (by simp [h])]
  split
  · exact List.cons_ne_nil _ _
  · split <;> exact List.cons_ne_nil _ _

theorem tokenRuns_ne_nil_of_mem {t : Token} {ts : List Token} (ht : t ∈ ts) (h : t.isSpace = false) :
    tokenRuns ts ≠ [] := by
  induction ts with
  | nil => cases ht
  | cons u us ih =>
    by_cases hs : u.isSpace = true
    · rw [tokenRuns_space hs]
      rcases List.mem_cons.mp ht with rfl | ht
      · rw [hs] at h; cases h
      · exact ih ht
    · exact tokenRuns_ne_nil (by simpa using hs) us

theorem joinTokens_eq_unwords_or {ts : List Token} {rest : Text} (h : Reads ts rest)
    (hl : ∀ t, ts.getLast? = some t → t.isSpace = false) :
    joinTokens ts = (if ts.head?.any (·.isSpace) then [' '] else []) ++
      Text.unwords ((tokenRuns ts).map joinTokens) := by
  induction ts with
  | nil => rfl
  | cons t ts ih =>
    have hlast : ∀ u, ts.getLast? = some u → u.isSpace = false := by
      intro u hu
      refine hl u ?_
      rw [List.getLast?_cons, hu]; rfl
    have ih := ih h.2 hlast
    rw [joinTokens_cons, List.head?_cons, Option.any_some]
    by_cases hs : t.isSpace = true
    · obtain ⟨ht, hn⟩ := (stands_space_iff (isSpace_iff.mp hs)).mp h.1
      have hhead : ts.head?.any (·.isSpace) = false := by
        cases ts with
        | nil => rfl
        | cons u us =>
          rw [← Bool.not_eq_true]
          intro hu
          have hut := ((stands_space_iff (isSpace_iff.mp hu)).mp h.2.1).1
          rw [joinTokens_cons, hut] at hn
          exact absurd hn (by simp [next, isBlank])
      rw [hhead] at ih
      rw [if_pos hs, tokenRuns_space hs, ht, ih]; rfl
    · rw [if_neg hs, tokenRuns, if_neg hs, List.nil_append]
      cases ts with
      | nil => simp [joinTokens, tokenRuns, Text.unwords]
      | cons u us =>
        obtain ⟨v, hv⟩ := Option.isSome_iff_exists.mp (List.getLast?_isSome.mpr (List.cons_ne_nil u us))
        have hne := tokenRuns_ne_nil_of_mem (List.mem_of_getLast? hv) (hlast v hv)
        obtain ⟨r, rs, hr⟩ := List.exists_cons_of_ne_nil hne
        rw [List.head?_cons, Option.any_some] at ih
        rw [List.head?_cons, Option.all_some, ih, hr]
        by_cases hu : u.isSpace = true
        -- a space ends the run of `t`, and anything else is part of it
        · have hsingle : Text.unwords [joinTokens [t]] = t.text := by simp [Text.unwords, joinTokens]
          have happ := unwords_append (List.cons_ne_nil (joinTokens [t]) []) (b := (r :: rs).map joinTokens)
            (by simp)
          rw [hsingle] at happ
          rw [if_pos hu, if_pos hu]
          exact happ.symm
        · rw [if_neg hu, if_neg hu, List.map_cons, List.map_cons, unwords_cons, unwords_cons, joinTokens_cons,
            List.nil_append, List.append_assoc]

theorem joinTokens_eq_unwords {ts : List Token} {rest : Text} (h : Reads ts rest)
    (hh : ∀ t, ts.head? = some t → t.isSpace = false) (hl : ∀ t, ts.getLast? = some t → t.isSpace = false) :
    joinTokens ts = Text.unwords ((tokenRuns ts).map joinTokens) := by
  have := joinTokens_eq_unwords_or h hl
  rwa [if_neg] at this
  cases ts with
  | nil => exact Bool.false_ne_true
  | cons t ts => simp [hh t rfl]

/-! ## Trees -/

theorem unwords_eq_tail (ts : List Text) : Text.unwords ts = (ts.flatMap (' ' :: ·)).tail := by
  cases ts with
  | nil => rfl
  | cons t ts => rw [← cons_unwords]; rfl

theorem cons_eq_flatMap {t : Text} {us : List Text} (h : t = Text.unwords us) (hn : us ≠ []) :
    ' ' :: t = us.flatMap (' ' :: ·) := by
  obtain ⟨u, us, rfl⟩ := List.exists_cons_of_ne_nil hn
  rw [h, cons_unwords]

namespace Value

section
variable {ts : List Token} {rest : Text}

theorem text_ofRun_eq (h : Reads ts rest) (hh : ∀ t, ts.head? = some t → t.isSpace = false)
    (hl : ∀ t, ts.getLast? = some t → t.isSpace = false) : (ofRun ts).text = Text.unwords (ofRun ts).units := by
  rw [text_ofRun]
  match ts with
  | [] => rfl
  | [t] =>
    rw [ofRun]
    by_cases hk : t.kind.isScalar = true
    · have ht : ¬t.text.isEmpty = true := by simpa using h.1.ne_nil
      rw [if_pos hk, units, if_neg ht]
      simp [joinTokens, Text.unwords]
    · rw [if_neg hk]
      exact joinTokens_eq_unwords h hh hl
  | _ :: _ :: _ => exact joinTokens_eq_unwords h hh hl

theorem units_ofRun_ne_nil {t : Token} {run : List Token} (h : Reads (t :: run) rest) (hs : t.isSpace = false) :
    (ofRun (t :: run)).units ≠ [] := by
  have hexpr : unitsOfExpression (t :: run) false ≠ [] := by
    simpa [unitsOfExpression] using tokenRuns_ne_nil hs run
  cases run with
  | nil =>
    rw [ofRun]
    by_cases hk : t.kind.isScalar = true
    · have ht : ¬t.text.isEmpty = true := by simpa using h.1.ne_nil
      rw [if_pos hk, units, if_neg ht]; exact List.cons_ne_nil _ _
    · rw [if_neg hk]; exact hexpr
  | cons u us => exact hexpr

theorem cons_text_ofRun {t : Token} {run : List Token} (h : Reads (t :: run) rest) (hs : t.isSpace = false)
    (hl : ∀ u, (t :: run).getLast? = some u → u.isSpace = false) :
    ' ' :: ((ofRun (t :: run)).mapTokens (inside trimSpaces)).text =
      (ofRun (t :: run)).units.flatMap (' ' :: ·) := by
  rw [mapTokens_ofRun]
  refine cons_eq_flatMap (text_ofRun_eq h ?_ hl) (units_ofRun_ne_nil h hs)
  rintro _ ⟨⟩; exact hs

theorem cons_text_wrapped (h : Reads ts (')' :: rest)) :
    ' ' :: ((expression ts true).mapTokens (inside trimSpaces)).text =
      (expression ts true).units.flatMap (' ' :: ·) := by
  have hj := joinTokens_eq_unwords (tidying_trimSpaces.reads rest h) (fun _ => head?_trimSpaces)
    (fun _ => getLast?_dropTrailingSpaces)
  rw [tokenRuns_trimSpaces] at hj
  refine cons_eq_flatMap ?_ (encloseUnits_ne_nil _ _ _)
  rw [mapTokens, show inside trimSpaces true ts = trimSpaces ts from rfl, text, if_pos rfl, hj, units,
    unitsOfExpression, if_pos rfl, unwords_encloseUnits]
  rfl

theorem GroupsOf.flatMap_text {vs : List Value} (h : GroupsOf ts vs) (hr : Reads ts (')' :: rest)) :
    ((mapTokensOfValues (inside trimSpaces) vs).flatMap fun v => ' ' :: v.text) =
      (unitsOfValues vs).flatMap (' ' :: ·) := by
  induction h with
  | nil => rfl
  | space _ _ ih => exact ih hr.2
  | span _ _ hq _ ih =>
    obtain ⟨hri, hrq, hrr⟩ := reads_append.mp hr
    have hin := hri.2
    rw [joinTokens_cons, hrq.parenClose hq] at hin
    rw [mapTokensOfValues, List.flatMap_cons, ih hrr, cons_text_wrapped hin, unitsOfValues, List.flatMap_append]
  | @run t run rest vs hs _ _ _ ih =>
    obtain ⟨hrun, hrr⟩ := reads_append.mp hr
    obtain ⟨sp, hsplit, hsp⟩ := exists_dropTrailingSpaces (t :: run)
    have hl : ∀ u, (dropTrailingSpaces (t :: run)).getLast? = some u → u.isSpace = false :=
      fun _ => getLast?_dropTrailingSpaces
    rw [hsplit] at hrun
    have hcore := (reads_append.mp hrun).1
    rw [dropTrailingSpaces_cons hs] at hl hcore ⊢
    rw [mapTokensOfValues, List.flatMap_cons, ih hrr, cons_text_ofRun hcore hs hl, unitsOfValues,
      List.flatMap_append]

theorem cons_bindingText {name t : Text} {us : List Text} (hp : isPlaceholder name = false)
    (h : t = Text.unwords us) : ' ' :: bindingText name t = (bindingUnits name us).flatMap (' ' :: ·) := by
  rw [bindingText, bindingUnits, if_neg (by simp [hp]), if_neg (by simp [hp])]
  refine cons_eq_flatMap ?_ (encloseUnits_ne_nil _ _ _)
  rw [unwords_encloseUnits, h]
  simp

/-- Without the blanks next to the parentheses of wrapped expressions, bindings are spelled as their
units. -/
theorem BindingsOf.flatMap_text {seen : Bool} {n : Nat} {bs : List (Binding Value)}
    (h : BindingsOf seen n ts bs) (hr : Reads ts rest) :
    ((mapTokensOfBindings (inside trimSpaces) bs).flatMap fun b => ' ' :: b.text) =
      (unitsOfBindings bs).flatMap (' ' :: ·) := by
  induction h generalizing rest with
  | nil => rfl
  | space _ _ ih => exact ih hr.2
  | @groups seen n t p inner q rest₀ vs bs hk _ _ hq _ hg _ ih =>
    obtain ⟨hri, hrq, hrr⟩ := reads_append.mp hr.2.2
    rw [joinTokens_cons, hrq.parenClose hq] at hri
    have htext : ((ofGroups vs).mapTokens (inside trimSpaces)).text = Text.unwords (ofGroups vs).units := by
      rw [mapTokens_ofGroups, text_ofGroups, units_ofGroups, unwords_eq_tail, unwords_eq_tail, List.flatMap_map,
        hg.flatMap_text hri]
    rw [mapTokensOfBindings, List.flatMap_cons, ih hrr, mapTokensOfBinding, Binding.text,
      cons_bindingText (upper_keyword hr.1 hk).1 htext, unitsOfBindings, List.flatMap_append, unitsOfBinding]
  | @call seen n t p inner q rest₀ name us cs bs hk _ _ hq hn _ _ ihc ih =>
    obtain ⟨hri, hrq, hrr⟩ := reads_append.mp hr.2.2
    rw [joinTokens_cons, hrq.parenClose hq] at hri
    obtain ⟨sp, t', hsplit, -⟩ := nestedCall?_split hn
    rw [hsplit] at hri
    have htext : ((nested { name := name.upper, bindings := cs }).mapTokens (inside trimSpaces)).text =
        Text.unwords (nested { name := name.upper, bindings := cs }).units := by
      rw [mapTokens, mapTokensOfCall, text, callText, textsOfBindings_eq_map, units, unitsOfCall, unwords_cons,
        unwords_cons, List.flatMap_map, ← ihc (reads_append.mp hri).2.2]
    rw [mapTokensOfBindings, List.flatMap_cons, ih hrr, mapTokensOfBinding, Binding.text,
      cons_bindingText (upper_keyword hr.1 hk).1 htext, unitsOfBindings, List.flatMap_append, unitsOfBinding]
  | @positional n t run rest₀ bs hs _ hrun _ ih =>
    obtain ⟨hr1, hrr⟩ := reads_append.mp hr
    have hval : ' ' :: ((ofPositional (t :: run)).mapTokens (inside trimSpaces)).text =
        (ofPositional (t :: run)).units.flatMap (' ' :: ·) := by
      rcases ofPositional_cases (t :: run) with ⟨p, inner, q, heq, _, _, hq, hv⟩ | hv
      · rw [heq] at hr1
        obtain ⟨hri, hrq, -⟩ := reads_append.mp hr1
        have hin := hri.2
        rw [joinTokens_cons, hrq.parenClose hq] at hin
        rw [hv]; exact cons_text_wrapped hin
      · rw [hv]
        exact cons_text_ofRun hr1 hs (RunOf.getLast?_of_stopsAtSpace hrun)
    rw [mapTokensOfBindings, List.flatMap_cons, ih hrr, mapTokensOfBinding, Binding.text, bindingText,
      if_pos (isPlaceholder_placeholder _), hval, unitsOfBindings, List.flatMap_append, unitsOfBinding,
      bindingUnits,
      if_pos (isPlaceholder_placeholder _)]

end

end Value

end ControlLanguage
