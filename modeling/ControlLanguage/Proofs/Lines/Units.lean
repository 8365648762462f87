import ControlLanguage.Lines.Unit
import ControlLanguage.Proofs.Spelling.Names
import ControlLanguage.Proofs.Token.Ends

/-!
# Units are tight

No unit of a command starts or ends with white space. A unit is made of
whole tokens without a space between them, of names in upper case and of
parentheses.
-/

namespace ControlLanguage

open Token

/-! ## Enclosing -/

section
variable {opening closing : Text} {units : List Text}

theorem tight_closeUnits {first : Text} (hc : Closes closing) (hf : Tight first)
    (hu : ∀ u ∈ units, Tight u) : ∀ u ∈ closeUnits closing first units, Tight u := by
  induction units generalizing first with
  | nil =>
    intro u h
    obtain rfl := List.mem_singleton.mp h
    exact ⟨hf.opens.append closing, hc.append first⟩
  | cons v vs ih =>
    intro u h
    rcases List.mem_cons.mp h with rfl | h
    · exact hf
    · exact ih (hu v (List.mem_cons_self ..)) (fun w hw => hu w (List.mem_cons_of_mem _ hw)) u h

theorem tight_encloseUnits (ho : Opens opening) (hc : Closes closing) (hu : ∀ u ∈ units, Tight u) :
    ∀ u ∈ encloseUnits opening closing units, Tight u := by
  cases units with
  | nil =>
    intro u h
    obtain rfl := List.mem_singleton.mp h
    exact ⟨ho.append closing, hc.append opening⟩
  | cons v vs =>
    have hv := hu v (List.mem_cons_self ..)
    exact tight_closeUnits hc ⟨ho.append v, hv.closes.append opening⟩ fun w hw => hu w (List.mem_cons_of_mem _ hw)

end

theorem closes_parenClose : Closes [')'] := ⟨[], ')', rfl, by decide⟩

theorem opens_parenOpen : Opens ['('] := ⟨'(', [], rfl, by decide⟩

/-! ## Expressions -/

section
variable {ts run : List Token}

theorem mem_tokenRuns (h : run ∈ tokenRuns ts) : run ≠ [] ∧ ∀ t ∈ run, t ∈ ts ∧ t.isSpace = false := by
  induction ts generalizing run with
  | nil => cases h
  | cons t ts ih =>
    have later : ∀ {r}, r ∈ tokenRuns ts → r ≠ [] ∧ ∀ u ∈ r, u ∈ t :: ts ∧ u.isSpace = false :=
      fun hr => (ih hr).imp id fun h u hu => (h u hu).imp (List.mem_cons_of_mem _) id
    rw [tokenRuns] at h
    by_cases hs : t.isSpace = true
    · rw [if_pos hs] at h
      exact later h
    rw [if_neg hs] at h
    rw [Bool.not_eq_true] at hs
    have single : [t] ≠ [] ∧ ∀ u ∈ [t], u ∈ t :: ts ∧ u.isSpace = false := by
      refine ⟨List.cons_ne_nil t [], fun u hu => ?_⟩
      obtain rfl := List.mem_singleton.mp hu
      exact ⟨List.mem_cons_self .., hs⟩
    split at h
    · rcases List.mem_cons.mp h with rfl | h
      · exact single
      · exact later h
    · split at h
      · obtain rfl := List.mem_singleton.mp h
        exact single
      · next r rs hr =>
        have hmem : ∀ v ∈ r :: rs, v ∈ tokenRuns ts := by rw [hr]; exact fun _ h => h
        rcases List.mem_cons.mp h with rfl | h
        · refine ⟨List.cons_ne_nil t r, fun u hu => ?_⟩
          rcases List.mem_cons.mp hu with rfl | hu
          · exact ⟨List.mem_cons_self .., hs⟩
          · exact (later (hmem r (List.mem_cons_self ..))).2 u hu
        · exact later (hmem run (List.mem_cons_of_mem _ h))

theorem tight_joinTokens (hn : run ≠ []) (h : ∀ t ∈ run, Tight t.text) : Tight (joinTokens run) := by
  refine ⟨?_, ?_⟩
  · obtain ⟨t, ts, rfl⟩ := List.exists_cons_of_ne_nil hn
    exact (h t (List.mem_cons_self ..)).opens.append _
  · obtain ⟨ts, t, rfl⟩ := (List.eq_nil_or_concat run).resolve_left hn
    rw [List.concat_eq_append] at h ⊢
    rw [joinTokens_append, joinTokens_cons, show joinTokens [] = [] from rfl, List.append_nil]
    exact (h t (by simp)).closes.append _

theorem tight_unitsOfExpression (h : ∀ t ∈ ts, t.isSpace = false → Tight t.text) (wrapped : Bool) :
    ∀ u ∈ unitsOfExpression ts wrapped, Tight u := by
  have hu : ∀ u ∈ (tokenRuns ts).map joinTokens, Tight u := by
    intro u hu
    obtain ⟨run, hr, rfl⟩ := List.mem_map.mp hu
    obtain ⟨hn, hm⟩ := mem_tokenRuns hr
    exact tight_joinTokens hn fun t ht => h t (hm t ht).1 (hm t ht).2
  rw [unitsOfExpression]
  cases wrapped with
  | false => exact hu
  | true => exact tight_encloseUnits opens_parenOpen closes_parenClose hu

end

/-! ## Values -/

namespace Value

section
variable {ts : List Token}

theorem tight_units_ofRun (h : ∀ t ∈ ts, t.isSpace = false → Tight t.text) : ∀ u ∈ (ofRun ts).units, Tight u := by
  match ts with
  | [] => exact tight_unitsOfExpression h false
  | [t] =>
    rw [ofRun]
    by_cases hk : t.kind.isScalar = true
    · rw [if_pos hk, units]
      have hs : t.isSpace = false := isSpace_of_kind rfl (by intro hs; rw [hs] at hk; cases hk)
      intro u hu
      split at hu
      · cases hu
      · obtain rfl := List.mem_singleton.mp hu
        exact h t (List.mem_cons_self ..) hs
    · rw [if_neg hk, units]
      exact tight_unitsOfExpression h false
  | _ :: _ :: _ => exact tight_unitsOfExpression h false

theorem units_ofGroups (vs : List Value) : (ofGroups vs).units = unitsOfValues vs := by
  match vs with
  | [] => rfl
  | [v] => exact (List.append_nil _).symm
  | _ :: _ :: _ => rfl

theorem GroupsOf.tight_units {vs : List Value} (h : GroupsOf ts vs)
    (ht : ∀ t ∈ ts, t.isSpace = false → Tight t.text) : ∀ u ∈ unitsOfValues vs, Tight u := by
  induction h with
  | nil => simp [unitsOfValues]
  | space _ _ ih => exact ih fun t hm => ht t (List.mem_cons_of_mem _ hm)
  | @span p inner q rest vs _ _ _ _ ih =>
    intro u hu
    rcases List.mem_append.mp hu with hu | hu
    · exact tight_unitsOfExpression (fun t hm => ht t (by simp [hm])) true u hu
    · exact ih (fun t hm => ht t (by simp [hm])) u hu
  | @run t run rest vs _ _ _ _ ih =>
    intro u hu
    rcases List.mem_append.mp hu with hu | hu
    · obtain ⟨sp, hsplit, -⟩ := exists_dropTrailingSpaces (t :: run)
      refine tight_units_ofRun (fun t' hm => ht t' (List.mem_append_left _ ?_)) u hu
      rw [hsplit]; exact List.mem_append_left _ hm
    · exact ih (fun t hm => ht t (List.mem_append_right _ hm)) u hu

theorem tight_units_ofPositional (h : ∀ t ∈ ts, t.isSpace = false → Tight t.text) :
    ∀ u ∈ (ofPositional ts).units, Tight u := by
  rcases ofPositional_cases ts with ⟨p, inner, q, rfl, _, _, _, hv⟩ | hv
  · rw [hv]
    exact tight_unitsOfExpression (fun t hm => h t (by simp [hm])) true
  · rw [hv]
    exact tight_units_ofRun h

theorem tight_bindingUnits {name : Text} {us : List Text} (hn : Opens name) (hu : ∀ u ∈ us, Tight u) :
    ∀ u ∈ bindingUnits name us, Tight u := by
  rw [bindingUnits]
  by_cases hp : isPlaceholder name = true
  · rw [if_pos hp]; exact hu
  · rw [if_neg hp]
    exact tight_encloseUnits (hn.append ['(']) closes_parenClose hu

theorem BindingsOf.tight_units {seen : Bool} {n : Nat} {bs : List (Binding Value)} {rest : Text}
    (h : BindingsOf seen n ts bs) (hr : Reads ts rest) (ht : ∀ t ∈ ts, t.isSpace = false → Tight t.text) :
    ∀ u ∈ unitsOfBindings bs, Tight u := by
  have keyword : ∀ {t : Token} {r : Text}, t.Stands r → t.kind = .keyword → Opens t.text.upper := fun hs hk =>
    (tight_upper (Word.isCommand_of_isName (hs.isName hk))).opens
  induction h generalizing rest with
  | nil => simp [unitsOfBindings]
  | space _ _ ih => exact ih hr.2 fun t hm => ht t (List.mem_cons_of_mem _ hm)
  | groups hk _ _ _ _ hg _ ih =>
    intro u hu
    rcases List.mem_append.mp hu with hu | hu
    · refine tight_bindingUnits (keyword hr.1 hk) ?_ u hu
      rw [units_ofGroups]
      exact hg.tight_units fun t hm => ht t (by simp [hm])
    · obtain ⟨-, -, hrr⟩ := reads_append.mp hr.2.2
      exact ih hrr (fun t hm => ht t (by simp [hm])) u hu
  | @call seen n t p inner q rest₀ name us cs bs hk _ _ _ hn _ _ ihc ih =>
    obtain ⟨sp, t', hsplit, -, rfl, -, hcmd, -⟩ := nestedCall?_split hn
    obtain ⟨hri, -, hrr⟩ := reads_append.mp hr.2.2
    have hmem : ∀ w ∈ us, w ∈ inner := by
      intro w hw; rw [hsplit]; exact List.mem_append_right _ (List.mem_cons_of_mem _ hw)
    rw [hsplit] at hri
    have hru := (reads_append.mp hri).2.2
    intro u hu
    rcases List.mem_append.mp hu with hu | hu
    · refine tight_bindingUnits (keyword hr.1 hk) (fun v hv => ?_) u hu
      rcases List.mem_cons.mp hv with rfl | hv
      · exact tight_upper hcmd
      · exact ihc hru (fun w hw => ht w (by simp [hmem w hw])) v hv
    · exact ih hrr (fun t hm => ht t (by simp [hm])) u hu
  | @positional n t run rest₀ bs _ _ _ _ ih =>
    intro u hu
    rcases List.mem_append.mp hu with hu | hu
    · rw [unitsOfBinding, bindingUnits, if_pos (isPlaceholder_placeholder _)] at hu
      exact tight_units_ofPositional (fun t hm => ht t (List.mem_append_left _ hm)) u hu
    · exact ih (reads_append.mp hr).2 (fun t hm => ht t (List.mem_append_right _ hm)) u hu

end

end Value

end ControlLanguage
