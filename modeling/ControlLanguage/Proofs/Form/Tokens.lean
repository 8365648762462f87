import ControlLanguage.Proofs.Form.Values
import ControlLanguage.Proofs.Places
import ControlLanguage.Proofs.Spelling.Groups

/-!
# The tokens of written values

The text of a value has tokens that fall into groups without a call among
them, and the text of the groups is the text again. So the tokens of written
parameters are bindings with the same names and texts.
-/

namespace ControlLanguage

open Token Value

section
variable {t u : Token} {ts us : List Token} {rest w v : Text}

/-! ## Tokens without parentheses -/

def NoParens (ts : List Token) : Prop := ∀ t ∈ ts, t.kind ≠ .parenOpen ∧ t.kind ≠ .parenClose

theorem NoParens.balanced (h : NoParens ts) : Balanced ts := by
  induction ts with
  | nil => rfl
  | cons t ts ih =>
    obtain ⟨ht, hts⟩ := List.forall_mem_cons.mp h
    rw [Balanced, openAfter_other ht.1 ht.2]
    exact ih hts

theorem NoParens.hasArgument (h : NoParens ts) (after : Bool) (d : Int) : hasArgument after d ts = false := by
  induction ts generalizing after with
  | nil => rfl
  | cons t ts ih =>
    obtain ⟨ht, hts⟩ := List.forall_mem_cons.mp h
    rw [hasArgument_other ht.1 ht.2]
    exact ih hts _

theorem NoParens.runOf (h : NoParens ts) (after : Bool) : RunOf stopsAtGroup after ts [] := by
  induction ts generalizing after with
  | nil => exact .done
  | cons t ts ih =>
    obtain ⟨ht, hts⟩ := List.forall_mem_cons.mp h
    refine .atom ?_ ht.1 ht.2 (ih hts _)
    rw [stopsAtGroup, beq_eq_false_iff_ne.mpr ht.1, Bool.and_false]

theorem NoParens.nestedCall? (h : NoParens ts) : nestedCall? ts = none := by
  rw [Option.eq_none_iff_forall_ne_some]
  rintro ⟨name, us⟩ hn
  obtain ⟨sp, t, rfl, -, -, -, -, harg⟩ := nestedCall?_split hn
  have hus : NoParens us := fun u hu => h u (by simp [hu])
  rw [hus.hasArgument] at harg; cases harg

/-! ## Runs -/

def AllClosed (ts : List Token) : Prop := ∀ t ∈ ts, t.kind = .string → t.isClosedLiteral = true

/-- The tokens of a text that is read in one run. -/
structure RunTokens (w : Text) (ts : List Token) : Prop where
  joined : joinTokens ts = w
  reads : Reads ts [')']
  noParens : NoParens ts
  closed : AllClosed ts
  head : ∃ t us, ts = t :: us ∧ t.isSpace = false
  last : ∀ t, ts.getLast? = some t → t.isSpace = false

theorem IsWord.exists_runTokens (h : IsWord w) : ∃ ts, RunTokens w ts := by
  obtain ⟨ts, hts⟩ := h.unbroken.exists_tokens
  cases ts with
  | nil => exact absurd hts.joined.symm h.ne_nil
  | cons t us =>
    refine ⟨t :: us, hts.joined, hts.reads, hts.notParen, hts.closed,
      ⟨t, us, rfl, hts.isSpace t (List.mem_cons_self ..)⟩,
      fun u hu => hts.isSpace u (List.mem_of_getLast? hu)⟩

theorem RunTokens.reads_delimited (h : RunTokens w ts) (hr : startsDelimited rest = true) : Reads ts rest :=
  h.reads.congr (.inr (.inr ⟨by simp, hr⟩)) h.last

theorem RunTokens.append (hw : RunTokens w ts) (hv : RunTokens v us) :
    RunTokens (w ++ ' ' :: v) (ts ++ Token.blank :: us) := by
  obtain ⟨t, ts, rfl, ht⟩ := hw.head
  obtain ⟨u, us, rfl, hu⟩ := hv.head
  have hlast : ((t :: ts) ++ Token.blank :: u :: us).getLast? = (u :: us).getLast? := by
    rw [List.getLast?_append, List.getLast?_cons_cons, List.getLast?_eq_some_getLast (List.cons_ne_nil u us)]; rfl
  refine ⟨?_, reads_append.mpr ⟨hw.reads_delimited rfl, stands_blank ?_, hv.reads⟩, ?_, ?_, ⟨t, _, rfl, ht⟩, ?_⟩
  · rw [joinTokens_append, hw.joined, joinTokens_cons Token.blank, hv.joined]; rfl
  · rw [joinTokens_cons, List.append_assoc]
    exact hv.reads.1.next_isBlank hu _
  · have hblank : Token.blank.kind ≠ .parenOpen ∧ Token.blank.kind ≠ .parenClose := by decide
    exact List.forall_mem_append.mpr ⟨hw.noParens, List.forall_mem_cons.mpr ⟨hblank, hv.noParens⟩⟩
  · exact List.forall_mem_append.mpr ⟨hw.closed, List.forall_mem_cons.mpr ⟨by simp [Token.blank], hv.closed⟩⟩
  · rw [hlast]; exact hv.last

theorem exists_runTokens {ws : List Text} (hn : ws ≠ []) (h : ∀ w ∈ ws, IsWord w) :
    ∃ ts, RunTokens (Text.unwords ws) ts := by
  induction ws with
  | nil => exact absurd rfl hn
  | cons w ws ih =>
    obtain ⟨hw, hws⟩ := List.forall_mem_cons.mp h
    obtain ⟨ts, hts⟩ := hw.exists_runTokens
    cases ws with
    | nil => rw [unwords_singleton]; exact ⟨ts, hts⟩
    | cons v vs =>
      obtain ⟨us, hus⟩ := ih (by simp) hws
      rw [unwords_cons_cons]
      exact ⟨_, hts.append hus⟩

/-! ## Values -/

/-- The tokens of the text of a value: they make groups that have this text. -/
structure ValueTokens (w : Text) (ts : List Token) : Prop where
  joined : joinTokens ts = w
  reads : Reads ts [')']
  balanced : Balanced ts
  closed : AllClosed ts
  noCall : nestedCall? ts = none
  groups : ∃ vs, GroupsOf ts vs ∧ (ofGroups vs).text = w

theorem RunTokens.valueTokens (h : RunTokens w ts) : ValueTokens w ts := by
  obtain ⟨t, us, rfl, ht⟩ := h.head
  have hdrop : dropTrailingSpaces (t :: us) = t :: us := by
    obtain ⟨sp, hsp, hall⟩ := exists_dropTrailingSpaces (t :: us)
    rcases List.eq_nil_or_concat sp with rfl | ⟨init, x, rfl⟩
    · rw [List.append_nil] at hsp; exact hsp.symm
    · have hx := h.last x (by rw [hsp, List.concat_eq_append, ← List.append_assoc, List.getLast?_concat])
      rw [hall x (by simp)] at hx; cases hx
  have hgroups : GroupsOf (t :: us ++ []) [ofRun (dropTrailingSpaces (t :: us))] :=
    .run ht (h.noParens t (List.mem_cons_self ..)).1 (h.noParens.runOf false) .nil
  rw [List.append_nil, hdrop] at hgroups
  refine ⟨h.joined, h.reads, h.noParens.balanced, h.closed, h.noParens.nestedCall?, _, hgroups, ?_⟩
  rw [ofGroups, text_ofRun, h.joined]

def openParen : Token := ⟨.parenOpen, ['('], 0⟩

def closeParen : Token := ⟨.parenClose, [')'], 0⟩

theorem AllClosed.span (hi : AllClosed us) (hr : AllClosed ts) :
    AllClosed (openParen :: us ++ closeParen :: ts) := by
  unfold AllClosed
  rw [List.forall_mem_append]
  exact ⟨List.forall_mem_cons.mpr ⟨by simp [openParen], hi⟩, List.forall_mem_cons.mpr ⟨by simp [closeParen], hr⟩⟩

theorem joinTokens_span (us ts : List Token) :
    joinTokens (openParen :: us ++ closeParen :: ts) = inParens (joinTokens us) ++ joinTokens ts := by
  rw [joinTokens_append, joinTokens_cons openParen, joinTokens_cons closeParen, inParens]
  simp [openParen, closeParen]

theorem reads_span (hi : Reads us [')']) (hr : Reads ts rest) : Reads (openParen :: us ++ closeParen :: ts) rest :=
  ⟨stands_parenOpen 0, reads_append.mpr ⟨hi.congr_head rfl, stands_parenClose 0, hr⟩⟩

structure SpanTokens (ws : List Text) (ts : List Token) : Prop where
  joined : joinTokens ts = Text.unwords (ws.map inParens)
  reads : Reads ts [')']
  balanced : Balanced ts
  closed : AllClosed ts
  groups : ∃ vs, GroupsOf ts vs ∧ vs.map Value.text = ws.map inParens
  head : ∃ us, ts = openParen :: us

theorem SpanTokens.single (h : RunTokens w us) : SpanTokens [w] (openParen :: us ++ [closeParen]) := by
  refine ⟨?_, reads_span h.reads trivial, .span rfl h.noParens.balanced rfl rfl,
    h.closed.span (by simp [AllClosed]),
    ⟨_, .span rfl h.noParens.balanced rfl .nil, ?_⟩, us ++ [closeParen], rfl⟩
  · rw [joinTokens_span, h.joined, List.map_singleton, unwords_singleton]
    exact List.append_nil _
  · rw [List.map_singleton, Value.text, if_pos rfl, h.joined]; rfl

theorem SpanTokens.cons {ws : List Text} (hn : ws ≠ []) (h : RunTokens w us) (hts : SpanTokens ws ts) :
    SpanTokens (w :: ws) (openParen :: us ++ closeParen :: Token.blank :: ts) := by
  obtain ⟨vs, hvs, htext⟩ := hts.groups
  obtain ⟨us', rfl⟩ := hts.head
  have hblank : Reads (Token.blank :: openParen :: us') [')'] := ⟨stands_blank rfl, hts.reads⟩
  have hclosed : AllClosed (Token.blank :: openParen :: us') :=
    List.forall_mem_cons.mpr ⟨fun h => absurd h (by decide), hts.closed⟩
  have hbalanced : Balanced (Token.blank :: openParen :: us') := hts.balanced
  refine ⟨?_, reads_span h.reads hblank, .span rfl h.noParens.balanced rfl hbalanced, h.closed.span hclosed,
    ⟨_, .span rfl h.noParens.balanced rfl (.space rfl hvs), ?_⟩, _, rfl⟩
  · obtain ⟨v, ws, rfl⟩ := List.exists_cons_of_ne_nil hn
    rw [joinTokens_span, h.joined, joinTokens_cons, hts.joined]
    exact (unwords_cons_cons ..).symm
  · rw [List.map_cons, htext, Value.text, if_pos rfl, h.joined]; rfl

theorem exists_spanTokens {ws : List Text} (hn : ws ≠ []) (h : ∀ w ∈ ws, IsWord w) : ∃ ts, SpanTokens ws ts := by
  induction ws with
  | nil => exact absurd rfl hn
  | cons w ws ih =>
    obtain ⟨hw, hws⟩ := List.forall_mem_cons.mp h
    obtain ⟨us, hus⟩ := hw.exists_runTokens
    by_cases hne : ws = []
    · subst hne; exact ⟨_, .single hus⟩
    · obtain ⟨ts, hts⟩ := ih hne hws
      exact ⟨_, hts.cons hne hus⟩

theorem IsValueText.exists_tokens (h : IsValueText w) : ∃ ts, ValueTokens w ts := by
  cases h with
  | words hn hw =>
    obtain ⟨ts, hts⟩ := exists_runTokens hn hw
    exact ⟨ts, hts.valueTokens⟩
  | groups hn hw =>
    obtain ⟨ts, hts⟩ := exists_spanTokens hn hw
    obtain ⟨us, rfl⟩ := hts.head
    obtain ⟨vs, hvs, htext⟩ := hts.groups
    refine ⟨_, hts.joined, hts.reads, hts.balanced, hts.closed, nestedCall?_open rfl us, vs, hvs, ?_⟩
    rw [text_ofGroups, htext]

/-! ## Parameters -/

def parameterText (keyword value : Text) : Text := keyword ++ inParens value

structure ParameterTokens (ps : List (Text × Text)) (ts : List Token) : Prop where
  joined : joinTokens ts = ps.flatMap fun p => ' ' :: parameterText p.1 p.2
  reads : Reads ts []
  closed : AllClosed ts
  bindings (seen : Bool) (n : Nat) : ∃ bs, BindingsOf seen n ts bs ∧
    bs.map (fun b => (b.name, b.value.text)) = ps.map fun p => (p.1.upper, p.2)

theorem ParameterTokens.cons {k : Text} {ps : List (Text × Text)} (hk : Word.isName k = true)
    (hv : ValueTokens v us)
    (h : ParameterTokens ps ts) :
    ParameterTokens ((k, v) :: ps) (Token.blank :: ⟨.keyword, k, 0⟩ :: (openParen :: us ++ closeParen :: ts)) := by
  obtain ⟨vs, hvs, htext⟩ := hv.groups
  have hname : Stands ⟨.keyword, k, 0⟩ (joinTokens (openParen :: us ++ closeParen :: ts) ++ []) := by
    rw [joinTokens_span]
    exact stands_keyword 0 hk rfl
  refine ⟨?_, ⟨stands_blank ?_, hname, reads_span hv.reads h.reads⟩, ?_, fun seen n => ?_⟩
  · rw [joinTokens_cons, joinTokens_cons, joinTokens_span, hv.joined, h.joined, List.flatMap_cons, parameterText,
      List.cons_append, List.append_assoc]
    rfl
  · rw [joinTokens_cons, List.append_assoc]
    exact hname.next_isBlank rfl _
  · exact List.forall_mem_cons.mpr ⟨fun h => absurd h (by decide),
      List.forall_mem_cons.mpr ⟨by rintro ⟨⟩, hv.closed.span h.closed⟩⟩
  · obtain ⟨bs, hbs, hmap⟩ := h.bindings true (n + 1)
    refine ⟨_, .space rfl (.groups rfl rfl hv.balanced rfl hv.noCall hvs hbs), ?_⟩
    rw [List.map_cons, List.map_cons, hmap, htext]

theorem exists_parameterTokens {ps : List (Text × Text)} (h : ∀ p ∈ ps, Word.isName p.1 = true ∧ IsValueText p.2) :
    ∃ ts, ParameterTokens ps ts := by
  induction ps with
  | nil => exact ⟨[], rfl, trivial, by simp [AllClosed], fun _ _ => ⟨[], .nil, rfl⟩⟩
  | cons p ps ih =>
    obtain ⟨hp, hps⟩ := List.forall_mem_cons.mp h
    obtain ⟨us, hus⟩ := hp.2.exists_tokens
    obtain ⟨ts, hts⟩ := ih hps
    exact ⟨_, hts.cons hp.1 hus⟩

end

end ControlLanguage
