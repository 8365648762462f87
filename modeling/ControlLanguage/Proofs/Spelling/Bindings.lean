import ControlLanguage.Proofs.Spelling.Groups

/-!
# Spelling bindings anew

The canonical text of a call puts one blank before each parameter and writes
the names in upper case. Its tokens follow the same grammar and make the
same tree, whatever blanks the call was first written with.
-/

namespace ControlLanguage

open Token

def Token.upper (t : Token) : Token := { t with text := t.text.upper }

namespace Value

/-- Bindings spelled anew, each behind a blank, in front of `rest`. -/
structure Respelled (g : List Token → List Token) (seen : Bool) (n : Nat) (ts : List Token)
    (bs : List (Binding Value)) (rest : Text) (rs : List Token) : Prop where
  bindings : BindingsOf seen n rs (mapTokensOfBindings (inside g) bs)
  joined : joinTokens rs = (mapTokensOfBindings (inside g) bs).flatMap fun b => ' ' :: b.text
  reads : Reads rs rest
  named : solid rs = upperMarked (nameMarksOfBindings bs) (solid ts)
  count : (nameMarksOfBindings bs).length = (solid ts).length
  argument : hasArgument false 0 rs = hasArgument false 0 ts
  head : rs = [] ∧ bs = [] ∨ ∃ u us, rs = blank :: u :: us
  strings : ∀ t ∈ rs, t.kind = .string → t ∈ ts

/-! ## Names -/

theorem upper_keyword {t : Token} {rest : Text} (h : t.Stands rest) (hk : t.kind = .keyword) :
    isPlaceholder t.text.upper = false ∧ t.text.upper.upper = t.text.upper := by
  have hn := h.isName hk
  exact ⟨Word.not_isPlaceholder_of_isName (Word.isName_upper hn),
    (Word.isCommand_upper (Word.isCommand_of_isName hn)).2⟩

theorem stands_upper {t : Token} {rest rest' : Text} (h : t.Stands rest)
    (hk : t.kind = .keyword ∨ t.kind = .value) (hc : Word.isCommand t.text = true)
    (hr : startsDelimited rest' = true) : t.upper.Stands rest' := by
  obtain ⟨k, text, pos⟩ := t
  rcases hk with hk | hk
  · obtain rfl : k = .keyword := hk
    exact stands_keyword pos (Word.isName_upper (h.isName rfl)) hr
  · obtain rfl : k = .value := hk
    obtain ⟨library, name, hu, hn, hl⟩ := Word.upper_cases hc (h.not_isName rfl)
    rw [Token.upper, show (Token.mk .value text pos).text.upper = _ from hu]
    exact stands_value pos hn hl hr

/-! ## Balance -/

theorem GroupsOf.balanced {ts : List Token} {vs : List Value} (h : GroupsOf ts vs) : Balanced ts := by
  induction h with
  | nil => rfl
  | space hs _ ih => exact Balanced.append (a := [_]) (openAfter_spaces (by simpa using hs) 0) ih
  | span hp hb hq _ ih => exact .span hp hb hq ih
  | run _ _ hr _ ih => exact hr.balanced.append ih

theorem BindingsOf.balanced {seen : Bool} {n : Nat} {ts : List Token} {bs : List (Binding Value)}
    (h : BindingsOf seen n ts bs) : Balanced ts := by
  induction h with
  | nil => rfl
  | space hs _ ih => exact Balanced.append (a := [_]) (openAfter_spaces (by simpa using hs) 0) ih
  | groups ht hp hb hq _ _ _ ih =>
    rw [Balanced, openAfter_other (by rw [ht]; decide) (by rw [ht]; decide)]
    exact Balanced.span hp hb hq ih
  | call ht hp hb hq _ _ _ _ ih =>
    rw [Balanced, openAfter_other (by rw [ht]; decide) (by rw [ht]; decide)]
    exact Balanced.span hp hb hq ih
  | positional _ _ hr _ ih => exact hr.balanced.append ih

theorem BindingsOf.nil_eq {seen : Bool} {n : Nat} {bs : List (Binding Value)} (h : BindingsOf seen n [] bs) :
    bs = [] := by
  generalize ht : ([] : List Token) = ts at h
  cases h with
  | nil => rfl
  | space => cases ht
  | groups => cases ht
  | call => cases ht
  | positional => cases ht

/-! ## Parameters with a keyword -/

section
variable {g : List Token → List Token} {seen : Bool} {n : Nat} {t p q : Token} {inner ts ss rs : List Token}
  {v : Value} {bs : List (Binding Value)} {rest rest' : Text}

theorem Respelled.argument_cons (ht : t.kind = .keyword) (hp : p.kind = .parenOpen) (hb : Balanced inner)
    (hq : q.kind = .parenClose) (hr : Reads (t :: p :: (inner ++ q :: ts)) rest)
    (hv : Spelled g inner v ss) (hbs : Balanced ss)
    (hbind : BindingsOf seen n (t.upper :: p :: (ss ++ q :: rs))
      (⟨t.text.upper, v.mapTokens (inside g)⟩ :: mapTokensOfBindings (inside g) bs))
    (h : Respelled g true (n + 1) ts bs rest' rs) :
    Respelled g seen n (t :: p :: (inner ++ q :: ts)) (⟨t.text.upper, v⟩ :: bs) rest'
      (blank :: t.upper :: p :: (ss ++ q :: rs)) := by
  obtain ⟨hrt, hrp, hri⟩ := hr
  obtain ⟨hplace, hupper⟩ := upper_keyword hrt ht
  have hrq := (reads_append.mp hri).2.1
  have hpt := hrp.parenOpen hp
  have hqt := hrq.parenClose hq
  have hts : t.isSpace = false := isSpace_of_kind ht (by decide)
  have hps := isSpace_of_kind hp (by decide)
  have hqs := isSpace_of_kind hq (by decide)
  have hstands : ∀ us : List Token, t.upper.Stands (joinTokens (p :: us) ++ rest') := by
    intro us
    refine stands_upper hrt (.inl ht) (Word.isCommand_of_isName (hrt.isName ht)) ?_
    rw [joinTokens_cons, hpt]; rfl
  have harg : ∀ u : Token, u.kind = .keyword → ∀ {inner : List Token}, Balanced inner → ∀ us,
      hasArgument false 0 (u :: p :: (inner ++ q :: us)) = true := by
    intro u hu inner hb us
    rw [hasArgument_other (by rw [hu]; decide) (by rw [hu]; decide), ← List.cons_append,
      hasArgument_span hp hb hq, hu]; rfl
  refine ⟨.space rfl ?_, ?_, ⟨?_, hstands _, ?_, ?_⟩, ?_, ?_, ?_, .inr ⟨_, _, rfl⟩, ?_⟩
  · rw [mapTokensOfBindings, mapTokensOfBinding]; exact hbind
  · rw [mapTokensOfBindings, List.flatMap_cons, ← h.joined, mapTokensOfBinding, Binding.text, bindingText,
      if_neg (by simp [hplace]), joinTokens_cons, joinTokens_cons, joinTokens_cons, joinTokens_append,
      joinTokens_cons, hpt, hqt, hv.joined]
    simp [blank, Token.upper]
  · refine stands_blank ?_
    rw [joinTokens_cons, List.append_assoc]
    exact (hstands (ss ++ q :: rs)).next_isBlank hts _
  · exact hrp.paren (.inl hp) _
  · refine reads_append.mpr ⟨?_, hrq.paren (.inr hq) _, h.reads⟩
    rw [joinTokens_cons, hqt]
    exact hv.reads _
  · rw [solid_cons_space rfl, solid_cons (show t.upper.isSpace = false from hts), solid_cons hts, solid_cons hps,
      solid_cons hps, solid_append, solid_append, solid_cons hqs, solid_cons hqs, nameMarksOfBindings,
      nameMarksOfBinding, if_neg (by simp [hplace])]
    simp only [List.cons_append, List.append_assoc, List.nil_append]
    rw [upperMarked_cons, upperMarked_cons, upperMarked_append hv.count, ← hv.named, upperMarked_cons, ← h.named]
    rfl
  · rw [solid_cons hts, solid_cons hps, solid_append, solid_cons hqs, nameMarksOfBindings, nameMarksOfBinding,
      if_neg (by simp [hplace])]
    simp only [List.length_append, List.length_cons, List.length_nil, hv.count, h.count]
    omega
  · rw [hasArgument_space rfl, harg t.upper ht hbs, harg t ht hb]
  · intro u hu hk
    simp only [List.mem_cons, List.mem_append] at hu ⊢
    rcases hu with rfl | rfl | rfl | hu | rfl | hu
    · cases hk
    · rw [show t.upper.kind = t.kind from rfl, ht] at hk; cases hk
    · exact .inr (.inl rfl)
    · exact .inr (.inr (.inl (hv.strings u hu hk)))
    · exact .inr (.inr (.inr (.inl rfl)))
    · exact .inr (.inr (.inr (.inr (h.strings u hu hk))))

theorem Respelled.nested {name : Text} {us : List Token} (hn : nestedCall? inner = some (name, us))
    (hr : Reads inner (')' :: rest)) (h : Respelled g false 0 us bs (')' :: rest) rs) :
    ∃ ss, nestedCall? ss = some (name.upper, rs) ∧ name.upper.upper = name.upper ∧ Balanced ss ∧
      Spelled g inner (.nested { name := name.upper, bindings := bs }) ss := by
  obtain ⟨sp, t, hsplit, hsp, rfl, hk, hc, ha⟩ := nestedCall?_split hn
  obtain ⟨v, vs, rfl⟩ : ∃ v vs, rs = blank :: v :: vs := by
    refine h.head.resolve_left ?_
    rintro ⟨rfl, -⟩
    rw [← h.argument] at ha; cases ha
  have hts : t.isSpace = false := by rcases hk with hk | hk <;> exact isSpace_of_kind hk (by decide)
  have hparen : t.kind ≠ .parenOpen ∧ t.kind ≠ .parenClose := by
    rcases hk with hk | hk <;> rw [hk] <;> decide
  have hrt : t.Stands (joinTokens us ++ ')' :: rest) := by
    rw [hsplit] at hr; exact (reads_append.mp hr).2.1
  have hsolid : solid inner = t.bare :: solid us := by
    rw [hsplit, solid_append, solid_spaces hsp, solid_cons hts]; rfl
  have hup := Word.isCommand_upper hc
  refine ⟨t.upper :: blank :: v :: vs, ?_, hup.2, ?_, ?_, fun rest' => ⟨?_, ?_⟩, ?_, ?_, ?_⟩
  · refine nestedCall?_eq_some_iff.mpr ⟨t.upper, blank, v, vs, ?_, rfl, rfl, rfl, hk, hup.1, ?_⟩
    · rw [List.dropWhile_cons_of_neg (by rw [show t.upper.isSpace = false from hts]; exact Bool.false_ne_true)]
    · rw [h.argument]; exact ha
  · rw [Balanced, openAfter_other (t := t.upper) hparen.1 hparen.2]
    exact h.bindings.balanced
  · rw [joinTokens_cons, h.joined, mapTokens, mapTokensOfCall, text, callText, textsOfBindings_eq_map, unwords_cons,
      List.flatMap_map]
    rfl
  · exact stands_upper hrt hk hc rfl
  · exact h.reads.congr_head rfl
  · rw [solid_cons (show t.upper.isSpace = false from hts), hsolid, nameMarks, nameMarksOfCall, upperMarked_cons,
      ← h.named]
    rfl
  · rw [hsolid, nameMarks, nameMarksOfCall, List.length_cons, List.length_cons, h.count]
  · intro w hw hkw
    rcases List.mem_cons.mp hw with rfl | hw
    · rcases hk with hk | hk <;> rw [show t.upper.kind = t.kind from rfl, hk] at hkw <;> cases hkw
    · rw [hsplit]
      exact List.mem_append_right _ (List.mem_cons_of_mem _ (h.strings w hw hkw))

/-! ## Positional parameters -/

theorem RunOf.getLast?_of_stopsAtSpace {after : Bool} {run : List Token} (h : RunOf stopsAtSpace after run ts) :
    ∀ u, run.getLast? = some u → u.isSpace = false := by
  induction h with
  | done => simp
  | stop _ => simp
  | @atom after t run rest hs _ _ _ ih =>
    cases run with
    | nil => rintro _ ⟨⟩; exact hs
    | cons u us => intro v hv; exact ih v (by rw [← hv, List.getLast?_cons_cons])
  | @span after p inner q run rest _ _ _ hq _ ih =>
    intro v hv
    rw [List.getLast?_append] at hv
    cases run with
    | nil => cases hv; exact isSpace_of_kind hq (by decide)
    | cons u us =>
      rw [List.getLast?_cons_cons] at hv
      refine ih v ?_
      rw [← hv, List.getLast?_eq_some_getLast (List.cons_ne_nil u us)]; rfl

def Ended (ts : List Token) : Prop := ts = [] ∨ ∃ u us, ts = u :: us ∧ u.isSpace = true

theorem Ended.apart (h : Ended ts) : Apart ts := by
  rcases h with rfl | ⟨u, us, rfl, hu⟩
  · exact apart_nil
  · exact apart_space hu us

theorem Ended.argumentStart? (h : Ended ts) (t : Token) : argumentStart? t ts = none := by
  rcases h with rfl | ⟨u, us, rfl, hu⟩
  · rfl
  · rw [ControlLanguage.argumentStart?, if_neg]
    rintro ⟨-, hp⟩
    rw [isSpace_of_kind hp (by decide)] at hu; cases hu

theorem Ended.runOf (h : Ended ts) (after : Bool) : RunOf stopsAtSpace after [] ts := by
  rcases h with rfl | ⟨u, us, rfl, hu⟩
  · exact .done
  · exact .stop hu

structure Positional (g : List Token → List Token) (ts : List Token) (u : Token) (us : List Token) : Prop where
  run {us'} : Ended us' → RunOf stopsAtSpace false (u :: us) us'
  start {us'} : Ended us' → argumentStart? u (us ++ us') = none
  not_space : u.isSpace = false
  value : ofPositional (u :: us) = (ofPositional ts).mapTokens (inside g)
  joined : joinTokens (u :: us) = (ofPositional (u :: us)).text
  reads {a b} : Reads ts a → Replaces b a → Reads (u :: us) b
  solid_eq : solid (u :: us) = solid ts
  argument : hasArgument false 0 (u :: us) = hasArgument false 0 ts
  strings : ∀ t ∈ u :: us, t.kind = .string → t ∈ ts

theorem Positional.wrapped (hg : Tidying g) (hp : p.kind = .parenOpen) (hb : Balanced inner)
    (hq : q.kind = .parenClose) (hr : Reads (p :: inner ++ [q]) rest) :
    Positional g (p :: inner ++ [q]) p (g inner ++ [q]) := by
  have hpt := hr.1.parenOpen hp
  have hqt := (reads_append.mp hr).2.1.parenClose hq
  have hval := ofPositional_wrapped hp (hg.balanced hb) hq
  have hps := isSpace_of_kind hp (by decide)
  refine ⟨fun h => ?_, fun _ => ?_, hps, ?_, ?_, fun hr hrep => ⟨?_, ?_⟩, ?_, ?_, ?_⟩
  · exact .span (by simp [stopsAtSpace, hps]) hp (hg.balanced hb) hq (h.runOf false)
  · cases hx : argumentStart? p (g inner ++ [q] ++ _) with
    | none => rfl
    | some x =>
      obtain ⟨p', us⟩ := x
      rw [(argumentStart?_eq_some hx).1] at hp; cases hp
  · rw [hval, List.cons_append, ofPositional_wrapped hp hb hq]; rfl
  · rw [hval, text, if_pos rfl, joinTokens_cons, joinTokens_append, joinTokens_cons, hpt, hqt]; rfl
  · exact hr.1.paren (.inl hp) _
  · obtain ⟨hin, hq', -⟩ := reads_append.mp hr.2
    refine reads_append.mpr ⟨?_, hq'.paren (.inr hq) _, trivial⟩
    rw [joinTokens_cons, hqt] at hin ⊢
    exact hg.reads _ hin
  · rw [List.cons_append, solid_cons hps, solid_cons hps, solid_append, solid_append, hg.solid_eq]
  · rw [← List.cons_append, hasArgument_span hp (hg.balanced hb) hq, hasArgument_span hp hb hq]
  · intro u hu _
    simp only [List.mem_cons, List.mem_append] at hu ⊢
    rcases hu with rfl | hu | hu
    · exact .inl (.inl rfl)
    · exact .inl (.inr (hg.subset u hu))
    · exact .inr hu

theorem Positional.unwrapped {run : List Token} (hs : t.isSpace = false)
    (harg : argumentStart? t (run ++ ts) = none) (hrun : RunOf stopsAtSpace false (t :: run) ts)
    (hv : ofPositional (t :: run) = ofRun (t :: run)) : Positional g (t :: run) t run := by
  refine ⟨fun h => ?_, fun h => ?_, hs, ?_, ?_, fun hr hrep => ?_, rfl, rfl, fun _ hu _ => hu⟩
  · rw [← List.append_nil (t :: run)] at hrun ⊢
    exact hrun.exchange (by simp) h.runOf
  · cases run with
    | nil => exact h.argumentStart? t
    | cons u us =>
      rw [List.cons_append, ControlLanguage.argumentStart?] at harg ⊢
      split at harg
      · cases harg
      · next hk => rw [if_neg hk]
  · rw [hv, mapTokens_ofRun]
  · rw [hv, text_ofRun]
  · exact hr.congr hrep (RunOf.getLast?_of_stopsAtSpace hrun)

theorem Positional.of_run {run : List Token} (hg : Tidying g) (hs : t.isSpace = false)
    (harg : argumentStart? t (run ++ ts) = none) (hrun : RunOf stopsAtSpace false (t :: run) ts)
    (hr : Reads (t :: run) rest) : ∃ u us, Positional g (t :: run) u us := by
  rcases ofPositional_cases (t :: run) with ⟨p, inner, q, heq, hp, hb, hq, -⟩ | hv
  · rw [heq] at hr ⊢
    exact ⟨p, _, .wrapped hg hp hb hq hr⟩
  · exact ⟨t, run, .unwrapped hs harg hrun hv⟩

theorem Respelled.positional_cons {run us : List Token} {u : Token} (hrun : RunOf stopsAtSpace false (t :: run) ts)
    (hbs : BindingsOf false (n + 1) ts bs) (hr : Reads (t :: run ++ ts) rest)
    (hrep : Replaces rest' rest) (hd : startsDelimited rest' = true) (hp : Positional g (t :: run) u us)
    (h : Respelled g false (n + 1) ts bs rest' rs) :
    Respelled g false n (t :: run ++ ts) (⟨placeholder (n + 1), ofPositional (t :: run)⟩ :: bs) rest'
      (blank :: (u :: us ++ rs)) := by
  obtain ⟨hr1, hr2⟩ := reads_append.mp hr
  have hended : Ended ts := hrun.rest_of_stopsAtSpace
  have hended' : Ended rs := h.head.imp And.left fun ⟨v, vs, hv⟩ => ⟨blank, v :: vs, hv, rfl⟩
  have hnext : Replaces (joinTokens rs ++ rest') (joinTokens ts ++ rest) := by
    rcases hended with rfl | ⟨v, vs, rfl, hv⟩
    · obtain rfl := hbs.nil_eq
      rcases h.head with ⟨rfl, -⟩ | ⟨v, vs, rfl⟩
      · exact hrep
      · have := h.joined; cases this
    · have hvt := ((stands_space_iff (isSpace_iff.mp hv)).mp hr2.1).1
      refine replaces_of_delimited (by rw [joinTokens_cons, hvt]; exact List.cons_ne_nil _ _) ?_
      rcases h.head with ⟨rfl, -⟩ | ⟨w, ws, rfl⟩
      · exact hd
      · rfl
  have hreads := hp.reads hr1 hnext
  have hmarks : (ofPositional (t :: run)).nameMarks = List.replicate (solid (t :: run)).length false :=
    nameMarks_ofPositional fun _ => hr1.ne_nil
  have hbal := hrun.balanced
  have hbal' := (hp.run hended').balanced
  refine ⟨.space rfl ?_, ?_, ⟨?_, reads_append.mpr ⟨hreads, h.reads⟩⟩, ?_, ?_, ?_, .inr ⟨_, _, rfl⟩, ?_⟩
  · rw [mapTokensOfBindings, mapTokensOfBinding, ← hp.value]
    exact .positional hp.not_space (hp.start hended') (hp.run hended') h.bindings
  · rw [mapTokensOfBindings, List.flatMap_cons, ← h.joined, mapTokensOfBinding, Binding.text, bindingText,
      if_pos (isPlaceholder_placeholder _), ← hp.value, ← hp.joined, joinTokens_cons, joinTokens_append]
    rfl
  · refine stands_blank ?_
    rw [List.cons_append, joinTokens_cons, List.append_assoc]
    exact hreads.1.next_isBlank hp.not_space _
  · rw [solid_cons_space rfl, solid_append, solid_append, hp.solid_eq, h.named, nameMarksOfBindings,
      nameMarksOfBinding, if_pos (isPlaceholder_placeholder _), hmarks, upperMarked_append List.length_replicate,
      upperMarked_false rfl]
  · rw [solid_append, nameMarksOfBindings, nameMarksOfBinding, if_pos (isPlaceholder_placeholder _), hmarks,
      List.length_append, List.length_append, List.length_replicate, h.count]
  · have hnew := hasArgument_append hbal' hended'.apart false
    have hold := hasArgument_append hbal hended.apart false
    rw [hasArgument_space rfl]
    exact hnew.trans ((congr (congrArg or hp.argument) h.argument).trans hold.symm)
  · intro w hw hk
    rcases List.mem_cons.mp hw with rfl | hw
    · cases hk
    · rcases List.mem_append.mp hw with hw | hw
      · exact List.mem_append_left _ (hp.strings w hw hk)
      · exact List.mem_append_right _ (h.strings w hw hk)

/-! ## All parameters -/

/-- Bindings can be spelled as their canonical text, in front of any text like the one behind them. -/
theorem BindingsOf.respell (hg : Tidying g) (h : BindingsOf seen n ts bs) (hr : Reads ts rest)
    (hrep : Replaces rest' rest) (hd : startsDelimited rest' = true) :
    ∃ rs, Respelled g seen n ts bs rest' rs := by
  induction h generalizing rest rest' with
  | nil => exact ⟨[], .nil, rfl, trivial, rfl, rfl, rfl, .inl ⟨rfl, rfl⟩, by simp⟩
  | space hs _ ih =>
    obtain ⟨rs, h⟩ := ih hr.2 hrep hd
    refine ⟨rs, h.bindings, h.joined, h.reads, ?_, ?_, ?_, h.head, fun t ht hk => ?_⟩
    · rw [solid_cons_space hs]; exact h.named
    · rw [solid_cons_space hs]; exact h.count
    · rw [hasArgument_space hs]; exact h.argument
    · exact List.mem_cons_of_mem _ (h.strings t ht hk)
  | @groups seen n t p inner q rest₀ vs bs ht hp hb hq hn hv _ ih =>
    obtain ⟨hri, hrq, hrr⟩ := reads_append.mp hr.2.2
    obtain ⟨rs, h⟩ := ih hrr hrep hd
    rw [joinTokens_cons, hrq.parenClose hq] at hri
    obtain ⟨ss, hss, hns, hsp⟩ := hv.spell hg hri hn
    refine ⟨_, h.argument_cons ht hp hb hq hr hsp hss.balanced ?_⟩
    have hup := (upper_keyword hr.1 ht).2
    rw [mapTokens_ofGroups]
    have : BindingsOf seen n (t.upper :: p :: (ss ++ q :: rs)) _ :=
      .groups (t := t.upper) ht hp hss.balanced hq hns hss h.bindings
    rwa [show t.upper.text.upper = _ from hup] at this
  | @call seen n t p inner q rest₀ name us cs bs ht hp hb hq hn _ _ ihc ih =>
    obtain ⟨hri, hrq, hrr⟩ := reads_append.mp hr.2.2
    obtain ⟨rs, h⟩ := ih hrr hrep hd
    rw [joinTokens_cons, hrq.parenClose hq] at hri
    have hru : Reads us (')' :: (joinTokens rest₀ ++ rest)) := by
      obtain ⟨sp, t, hsplit, -⟩ := nestedCall?_split hn
      rw [hsplit] at hri
      exact (reads_append.mp hri).2.2
    obtain ⟨ws, hws⟩ := ihc hru (.inl rfl) rfl
    obtain ⟨ss, hns, hname, hbs, hsp⟩ := hws.nested hn hri
    refine ⟨_, h.argument_cons ht hp hb hq hr hsp hbs ?_⟩
    have hup := (upper_keyword hr.1 ht).2
    have : BindingsOf seen n (t.upper :: p :: (ss ++ q :: rs)) _ :=
      .call (t := t.upper) ht hp hbs hq hns hws.bindings h.bindings
    rwa [show t.upper.text.upper = _ from hup, hname] at this
  | positional hs harg hrun hbs ih =>
    obtain ⟨hr1, hr2⟩ := reads_append.mp hr
    obtain ⟨rs, h⟩ := ih hr2 hrep hd
    obtain ⟨u, us, hp⟩ := Positional.of_run hg hs harg hrun hr1
    exact ⟨_, h.positional_cons hrun hbs hr hrep hd hp⟩

end

end Value

end ControlLanguage
