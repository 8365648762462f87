import ControlLanguage.Command.Parse
import ControlLanguage.Proofs.Form.Tokens
import ControlLanguage.Proofs.RoundTrip
import ControlLanguage.Proofs.Source

/-!
# Reading written parameters

A command name with written parameters behind it has no comment, and it is
read as a command with these parameters.
-/

namespace ControlLanguage

open Token Value

/-! ## No comment -/

section
variable {v w rest : Text} {ws : List Text}

theorem noComment_unwords (hn : ws ≠ []) (h : ∀ w ∈ ws, IsWord w) (hq : rest.head? ≠ some '\'')
    (hr : NoComment rest) :
    NoComment (Text.unwords ws ++ rest) := by
  induction ws with
  | nil => exact absurd rfl hn
  | cons w ws ih =>
    obtain ⟨hw, hws⟩ := List.forall_mem_cons.mp h
    cases ws with
    | nil =>
      rw [unwords_singleton]
      exact hr.unbroken hw.unbroken hq
    | cons v vs =>
      rw [unwords_cons_cons, List.append_assoc, List.cons_append]
      refine .unbroken hw.unbroken (by simp) (.delimiter rfl (fun _ => ?_) (ih (by simp) hws))
      obtain ⟨c, cs, rfl, -, hc⟩ := (hws v (List.mem_cons_self ..)).opens
      rw [List.head?_append, head?_unwords (by simp)]
      simpa using hc

theorem noComment_inParens (hv : NoComment (v ++ ')' :: rest)) : NoComment (inParens v ++ rest) := by
  rw [inParens, List.cons_append, List.cons_append, List.append_assoc]
  exact hv.delimiter rfl (fun h => absurd h (by decide))

theorem noComment_groups (h : ∀ w ∈ ws, IsWord w) (hr : NoComment rest) :
    NoComment (Text.unwords (ws.map inParens) ++ rest) := by
  have hgroup : ∀ w, IsWord w → ∀ t, NoComment t → NoComment (inParens w ++ t) := by
    intro w hw t ht
    exact noComment_inParens (.unbroken hw.unbroken (by simp) (ht.delimiter rfl fun h => absurd h (by decide)))
  induction ws with
  | nil => exact hr
  | cons w ws ih =>
    obtain ⟨hw, hws⟩ := List.forall_mem_cons.mp h
    cases ws with
    | nil =>
      rw [List.map_singleton, unwords_singleton]
      exact hgroup w hw rest hr
    | cons v vs =>
      rw [List.map_cons, List.map_cons, unwords_cons_cons, List.append_assoc, List.cons_append]
      refine hgroup w hw _ (.delimiter rfl (fun _ => ?_) (ih hws))
      rw [List.head?_append, head?_unwords (by simp [inParens])]
      simp [inParens]

theorem IsValueText.noComment (h : IsValueText v) (hq : rest.head? ≠ some '\'') (hr : NoComment rest) :
    NoComment (v ++ rest) := by
  cases h with
  | words hn hw => exact noComment_unwords hn hw hq hr
  | groups _ hw => exact noComment_groups hw hr

theorem noComment_parameters {ps : List (Text × Text)} (h : ∀ p ∈ ps, Word.isName p.1 = true ∧ IsValueText p.2) :
    NoComment (ps.flatMap fun p => ' ' :: parameterText p.1 p.2) := by
  induction ps with
  | nil => exact noComment_nil
  | cons p ps ih =>
    obtain ⟨⟨hk, hv⟩, hps⟩ := List.forall_mem_cons.mp h
    have hclose : NoComment (')' :: ps.flatMap fun p => ' ' :: parameterText p.1 p.2) :=
      (ih hps).delimiter rfl fun h => absurd h (by decide)
    have hvalue := noComment_inParens (hv.noComment (by simp) hclose)
    have hordinary := List.all_eq_true.mp (Word.isOrdinary_of_isCommand (Word.isCommand_of_isName hk))
    rw [List.flatMap_cons, List.cons_append, parameterText, List.append_assoc]
    refine .delimiter rfl (fun _ => ?_) (hvalue.unbroken (.of_ordinary hordinary) (by simp [inParens]))
    obtain ⟨c, cs, hc⟩ := List.exists_cons_of_ne_nil (Word.ne_nil_of_isCommand (Word.isCommand_of_isName hk))
    rw [hc]
    rintro ⟨⟩
    exact Word.slash_not_mem (Word.all_of_isName hk) (by rw [hc]; exact List.mem_cons_self ..)

end

/-! ## The command that is read -/

section
variable {name text : Text} {ps : List (Text × Text)} {label : Option Text}

theorem takeComment_parameters (hname : Word.isCommand name = true)
    (hps : ∀ p ∈ ps, Word.isName p.1 = true ∧ IsValueText p.2) :
    takeComment (name ++ ps.flatMap fun p => ' ' :: parameterText p.1 p.2) =
      (name ++ ps.flatMap fun p => ' ' :: parameterText p.1 p.2, none) := by
  have hspace := Word.not_isSpace_of_isCommand hname
  have hnone : NoComment (name ++ ps.flatMap fun p => ' ' :: parameterText p.1 p.2) := by
    apply NoComment.unbroken (.of_ordinary (List.all_eq_true.mp (Word.isOrdinary_of_isCommand hname)))
    · cases ps with
      | nil => simp
      | cons => simp
    · exact noComment_parameters hps
  have hcloses : Closes (name ++ ps.flatMap fun p => ' ' :: parameterText p.1 p.2) := by
    rcases List.eq_nil_or_concat ps with rfl | ⟨init, p, rfl⟩
    · rw [List.flatMap_nil, List.append_nil]
      exact (tight_of_not_isSpace (Word.ne_nil_of_isCommand hname) hspace).closes
    · refine ⟨name ++ (init.flatMap (fun p => ' ' :: parameterText p.1 p.2) ++ ' ' :: (p.1 ++ '(' :: p.2)), ')', ?_,
        by decide⟩
      simp [parameterText, inParens]
  exact (takeComment_eq_self_iff hname hcloses).mpr hnone

theorem texts_mapTokens {f : Bool → List Token → List Token}
    (hf : ∀ wrapped ts, joinTokens (f wrapped ts) = joinTokens ts)
    (bs : List (Binding Value)) : (mapTokensOfBindings f bs).map (fun b => (b.name, b.value.text)) =
      bs.map fun b => (b.name, b.value.text) := by
  induction bs with
  | nil => rfl
  | cons b bs ih =>
    rw [mapTokensOfBindings, List.map_cons, List.map_cons, ih, mapTokensOfBinding, Value.text_mapTokens hf]

theorem Command.parse_bindings {ts : List Token} {bs : List (Binding Value)} (hname : Word.isCommand name = true)
    (hreads : Reads ts []) (hclosed : AllClosed ts) (hbs : BindingsOf false 0 ts bs)
    (hr : startsDelimited (joinTokens ts) = true)
    (hc : takeComment (name ++ joinTokens ts) = (name ++ joinTokens ts, none))
    (hl : takeLabel text = (label, name ++ joinTokens ts)) :
    ∃ cs, Command.parse text = .ok { name := name.upper, bindings := cs, label } ∧
      mapTokensOfBindings unplacing cs = mapTokensOfBindings unplacing bs := by
  have hbare := bare_readFrom hreads name.length
  obtain ⟨cs, hcs, he⟩ := hbs.of_unplaced (map_unplaced_of_bare hbare)
  have hcheck : Token.check (some (name ++ joinTokens ts)) (ofText (name ++ joinTokens ts)) =
      .ok (⟨.command, name, 0⟩, readFrom false name.length (joinTokens ts)) := by
    apply check_eq_ok_iff.mpr
    exact ⟨ofText_command hname hr, rfl, List.forall_mem_cons.mpr ⟨by simp, closed_of_bare hbare hclosed⟩⟩
  have hcommand : Command.ofTokens (some (name ++ joinTokens ts)) ⟨.command, name, 0⟩
      (readFrom false name.length (joinTokens ts)) = .ok { name := name.upper, bindings := cs } :=
    ofTokens_eq_ok_iff.mpr ⟨hcs, rfl⟩
  refine ⟨cs, ?_, he⟩
  rw [Command.parse]
  simp only [hl, hc, hcheck, hcommand]

/-- A command text that consists of a name and written parameters is read as the command with these
parameters. -/
theorem Command.parse_parameters (hname : Word.isCommand name = true)
    (hps : ∀ p ∈ ps, Word.isName p.1 = true ∧ IsValueText p.2)
    (hl : takeLabel text = (label, name ++ ps.flatMap fun p => ' ' :: parameterText p.1 p.2)) :
    ∃ c, Command.parse text = .ok c ∧
      c.bindings.map (fun b => (b.name, b.value.text)) = ps.map fun p => (p.1.upper, p.2) := by
  obtain ⟨ts, hts⟩ := exists_parameterTokens hps
  obtain ⟨bs, hbs, hmap⟩ := hts.bindings false 0
  have hcomment := takeComment_parameters hname hps
  have hdelimited : startsDelimited (ps.flatMap fun p => ' ' :: parameterText p.1 p.2) = true := by
    cases ps with
    | nil => rfl
    | cons => rfl
  rw [← hts.joined] at hl hcomment hdelimited
  obtain ⟨cs, hparse, he⟩ := Command.parse_bindings hname hts.reads hts.closed hbs hdelimited hcomment hl
  have hplaces : ∀ wrapped us, joinTokens (unplacing wrapped us) = joinTokens us := fun _ => joinTokens_map_unplaced
  refine ⟨_, hparse, ?_⟩
  rw [← hmap, ← texts_mapTokens hplaces cs, he, texts_mapTokens hplaces]

end

end ControlLanguage
