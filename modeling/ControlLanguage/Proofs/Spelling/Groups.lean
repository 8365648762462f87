import ControlLanguage.Command.Text
import ControlLanguage.Proofs.Spelling.Names

/-!
# Spelling groups anew

The groups of a value are written one after the other, each behind a single
blank. They fall into the same groups again, and no call arises that was not
there before. The tokens in the parentheses of a group may be tidied on the
way.
-/

namespace ControlLanguage

open Token

/-- A change to the tokens between two parentheses that keeps what they say. -/
structure Tidying (g : List Token → List Token) : Prop where
  balanced {ts} : Balanced ts → Balanced (g ts)
  reads {ts rest} (rest') : Reads ts (')' :: rest) → Reads (g ts) (')' :: rest')
  solid_eq (ts) : solid (g ts) = solid ts
  subset {ts} : ∀ t ∈ g ts, t ∈ ts

def inside (g : List Token → List Token) (wrapped : Bool) (ts : List Token) : List Token :=
  if wrapped then g ts else ts

theorem Token.Reads.congr_head {ts : List Token} {rest rest' : Text} (h : Reads ts rest)
    (hh : rest'.head? = rest.head?) : Reads ts rest' := by
  induction ts with
  | nil => trivial
  | cons t ts ih =>
    exact ⟨h.1.congr_head (by rw [List.head?_append, List.head?_append, hh]), ih h.2⟩

theorem Token.Reads.ne_nil {t : Token} {ts : List Token} {rest : Text} (h : Reads ts rest) (ht : t ∈ ts) :
    t.text ≠ [] := by
  induction ts with
  | nil => cases ht
  | cons u us ih =>
    rcases List.mem_cons.mp ht with rfl | ht
    · exact h.1.ne_nil
    · exact ih h.2 ht

theorem Tidying.id : Tidying id where
  balanced h := h
  reads _ h := h.congr_head rfl
  solid_eq _ := rfl
  subset _ ht := ht

section
variable {t : Token} {ts : List Token} {rest rest' : Text}

theorem replaces_of_delimited (h : rest ≠ []) (hd : startsDelimited rest' = true) : Replaces rest' rest :=
  .inr (.inr ⟨h, hd⟩)

theorem Token.Stands.paren (h : t.Stands rest) (hk : t.kind = .parenOpen ∨ t.kind = .parenClose)
    (rest' : Text) : t.Stands rest' := by
  obtain ⟨k, text, pos⟩ := t
  rcases hk with hk | hk
  · rw [show text = _ from h.parenOpen hk, show k = _ from hk]; exact stands_parenOpen pos
  · rw [show text = _ from h.parenClose hk, show k = _ from hk]; exact stands_parenClose pos

theorem stands_blank (h : next isBlank rest = false) : Token.blank.Stands rest := stands_space 0 h

theorem Token.Stands.next_isBlank (h : t.Stands rest) (hs : t.isSpace = false) (us : Text) :
    next isBlank (t.text ++ us) = false := by
  have hb := h.head_not_blank hs
  obtain ⟨c, cs, ht, -⟩ := h
  rw [ht] at hb ⊢
  exact hb

end

/-! ## Texts -/

theorem cons_unwords (t : Text) (ts : List Text) :
    ' ' :: Text.unwords (t :: ts) = (t :: ts).flatMap (' ' :: ·) := by
  induction ts generalizing t with
  | nil => simp [Text.unwords]
  | cons u us ih =>
    rw [List.flatMap_cons, ← ih]
    simp [Text.unwords, List.intercalate]

theorem unwords_cons (t : Text) (ts : List Text) : Text.unwords (t :: ts) = t ++ ts.flatMap (' ' :: ·) := by
  have h := cons_unwords t ts
  rw [List.flatMap_cons, List.cons_append] at h
  exact (List.cons.inj h).2

namespace Value

theorem text_ofRun (ts : List Token) : (ofRun ts).text = joinTokens ts := by
  match ts with
  | [] => rfl
  | [t] =>
    have ht : joinTokens [t] = t.text := List.append_nil _
    rw [ofRun, ht]
    by_cases hk : t.kind.isScalar = true
    · rw [if_pos hk, text]
    · rw [if_neg hk, text]; exact ht
  | _ :: _ :: _ => rfl

theorem mapTokens_ofRun (g : List Token → List Token) (ts : List Token) :
    (ofRun ts).mapTokens (inside g) = ofRun ts := by
  match ts with
  | [] => rfl
  | [t] =>
    rw [ofRun]
    by_cases hk : t.kind.isScalar = true
    · rw [if_pos hk]; rfl
    · rw [if_neg hk]; rfl
  | _ :: _ :: _ => rfl

theorem text_ofGroups (vs : List Value) : (ofGroups vs).text = Text.unwords (vs.map text) := by
  match vs with
  | [] => rfl
  | [v] => simp [ofGroups, Text.unwords]
  | v :: w :: ws => exact congrArg Text.unwords (textsOfValues_eq_map (v :: w :: ws))

structure Spelled (g : List Token → List Token) (ts : List Token) (v : Value) (ss : List Token) : Prop where
  joined : joinTokens ss = (v.mapTokens (inside g)).text
  reads (rest : Text) : Reads ss (')' :: rest)
  named : solid ss = upperMarked v.nameMarks (solid ts)
  count : v.nameMarks.length = (solid ts).length
  strings : ∀ t ∈ ss, t.kind = .string → t ∈ ts

/-! ## Groups -/

structure Regrouped (g : List Token → List Token) (ts : List Token) (vs : List Value) (ss : List Token) :
    Prop where
  groups : GroupsOf ss (mapTokensOfValues (inside g) vs)
  joined : joinTokens ss = (mapTokensOfValues (inside g) vs).flatMap fun v => ' ' :: v.text
  reads (rest : Text) : Reads ss (')' :: rest)
  solid_eq : solid ss = solid ts
  argument : hasArgument false 0 ss = hasArgument false 0 ts
  head : ss = [] ∧ ts.dropWhile Token.isSpace = [] ∨
    ∃ u us, ss = blank :: u :: us ∧ (ts.dropWhile Token.isSpace).head? = some u
  nested : nestedCall? ts = none → nestedCall? ss = none
  strings : ∀ t ∈ ss, t.kind = .string → t ∈ ts

theorem GroupsOf.tail {t : Token} {ts : List Token} {vs : List Value} (h : GroupsOf (t :: ts) vs)
    (hs : t.isSpace = true) : GroupsOf ts vs := by
  generalize hu : t :: ts = us at h
  cases h with
  | nil => cases hu
  | space _ h => obtain ⟨-, rfl⟩ := List.cons.inj hu; exact h
  | span hp _ _ _ =>
    obtain ⟨rfl, -⟩ := List.cons.inj hu
    rw [isSpace_of_kind hp (by decide)] at hs; cases hs
  | run hn _ _ _ =>
    obtain ⟨rfl, -⟩ := List.cons.inj hu
    rw [hn] at hs; cases hs

section
variable {g : List Token → List Token} (hg : Tidying g)
include hg

theorem Regrouped.span {p q : Token} {inner ts ss : List Token} {vs : List Value} {rest : Text}
    (hp : p.kind = .parenOpen) (hb : Balanced inner) (hq : q.kind = .parenClose)
    (hr : Reads (p :: inner ++ q :: ts) (')' :: rest)) (h : Regrouped g ts vs ss) :
    Regrouped g (p :: inner ++ q :: ts) (.expression inner true :: vs)
      (blank :: (p :: g inner ++ q :: ss)) := by
  obtain ⟨hri, hrq, -⟩ := reads_append.mp hr
  have hpt := hri.1.parenOpen hp
  have hqt := hrq.parenClose hq
  have hps := isSpace_of_kind hp (by decide)
  have hqs := isSpace_of_kind hq (by decide)
  refine ⟨.space rfl (.span hp (hg.balanced hb) hq h.groups), ?_, fun rest' => ⟨?_, ?_⟩, ?_, ?_, .inr ?_,
    fun _ => ?_, ?_⟩
  · rw [mapTokensOfValues, List.flatMap_cons, ← h.joined, mapTokens, text, joinTokens_cons, joinTokens_append,
      joinTokens_cons, joinTokens_cons, hpt, hqt]
    simp [inside, blank]
  · exact stands_blank (by
      rw [List.cons_append, joinTokens_cons, List.append_assoc]
      exact hri.1.next_isBlank hps _)
  · refine reads_append.mpr ⟨⟨hri.1.paren (.inl hp) _, ?_⟩, hrq.paren (.inr hq) _, h.reads rest'⟩
    have hin := hri.2
    rw [joinTokens_cons, hqt] at hin ⊢
    exact hg.reads _ hin
  · rw [solid_cons_space rfl, solid_append, solid_append, solid_cons hps, solid_cons hps, solid_cons hqs,
      solid_cons hqs, hg.solid_eq, h.solid_eq]
  · rw [hasArgument_space rfl, hasArgument_span hp (hg.balanced hb) hq, hasArgument_span hp hb hq, h.argument]
  · refine ⟨p, _, rfl, ?_⟩
    rw [List.cons_append, List.dropWhile_cons_of_neg (by simp [hps])]; rfl
  · rw [nestedCall?_space rfl, List.cons_append, nestedCall?_open hp]
  · intro t ht hk
    simp only [List.mem_cons, List.mem_append] at ht ⊢
    rcases ht with rfl | (rfl | ht) | rfl | ht
    · cases hk
    · exact .inl (.inl rfl)
    · exact .inl (.inr (hg.subset t ht))
    · exact .inr (.inl rfl)
    · exact .inr (.inr (h.strings t ht hk))

omit hg in
/-- A run after which a space stands makes no call that the run did not make before. -/
theorem nestedCall?_run {t : Token} {a sp rest ss : List Token} (ht : t.isSpace = false)
    (hsp : ∀ u ∈ sp, u.isSpace = true) (hl : ∀ u, (t :: a).getLast? = some u → u.isSpace = false)
    (hend : ss = [] ∨ sp ≠ [] ∧ rest ≠ [])
    (harg : hasArgument false 0 (t :: (a ++ ss)) = hasArgument false 0 (t :: (a ++ sp ++ rest)))
    (h : nestedCall? (t :: (a ++ sp ++ rest)) = none) : nestedCall? (t :: (a ++ ss)) = none := by
  rw [Option.eq_none_iff_forall_ne_some] at h ⊢
  rintro ⟨name, us⟩ hn
  obtain ⟨t', gap, u, ws, hd, rfl, hname, hgap, hk, hc, ha⟩ := nestedCall?_eq_some_iff.mp hn
  rw [List.dropWhile_cons_of_neg (by simp [ht]), List.cons.injEq] at hd
  obtain ⟨rfl, hd⟩ := hd
  obtain ⟨gap', u', ws', hd', hgap'⟩ : ∃ gap' u' ws', a ++ sp ++ rest = gap' :: u' :: ws' ∧
      gap'.isSpace = true := by
    match a with
    | [] =>
      have hss : ss ≠ [] := by rintro rfl; cases hd
      obtain ⟨hsn, hrn⟩ := hend.resolve_left hss
      obtain ⟨s, sp, rfl⟩ := List.exists_cons_of_ne_nil hsn
      obtain ⟨r, rest, rfl⟩ := List.exists_cons_of_ne_nil hrn
      refine ⟨s, (sp ++ [r]).head (by simp), (sp ++ r :: rest).tail, ?_, hsp s (List.mem_cons_self ..)⟩
      cases sp <;> rfl
    | [c] =>
      obtain ⟨rfl, -⟩ := List.cons.inj hd
      have := hl c rfl
      rw [hgap] at this; cases this
    | c :: c' :: a =>
      obtain ⟨rfl, -⟩ := List.cons.inj hd
      exact ⟨c, c', _, rfl, hgap⟩
  refine h (name, gap' :: u' :: ws') (nestedCall?_eq_some_iff.mpr ⟨t, gap', u', ws', ?_, rfl, hname, hgap',
    hk, hc, ?_⟩)
  · rw [List.dropWhile_cons_of_neg (by simp [ht]), hd']
  · rw [hd', hd, hasArgument_name hk (apart_space hgap _), hasArgument_name hk (apart_space hgap' _)] at harg
    rw [← harg]; exact ha

/-- What follows a run and its spaces `sp`, before and after it is spelled anew. -/
def Follows (sp ts ss : List Token) : Prop :=
  ts = [] ∧ ss = [] ∨ ∃ p ps us, ts = p :: ps ∧ ss = blank :: p :: us ∧ p.kind = .parenOpen ∧ sp ≠ []

omit hg in
theorem Regrouped.follows {t : Token} {a sp ts ss : List Token} {vs : List Value}
    (hrun : RunOf stopsAtGroup false (t :: a ++ sp) ts)
    (hl : ∀ u, (t :: a).getLast? = some u → u.isSpace = false) (h : Regrouped g ts vs ss) : Follows sp ts ss := by
  rcases hrun.rest_of_stopsAtGroup with rfl | ⟨⟨p, ps, rfl, hp⟩, -, hspace⟩
  · rcases h.head with ⟨hss, -⟩ | ⟨u, us, -, hu⟩
    · exact .inl ⟨rfl, hss⟩
    · cases hu
  · have hps : ¬p.isSpace = true := by simp [isSpace_of_kind hp (by decide)]
    rcases h.head with ⟨-, hd⟩ | ⟨u, us, hss, hu⟩
    · rw [List.dropWhile_cons_of_neg hps] at hd; cases hd
    · rw [List.dropWhile_cons_of_neg hps] at hu; cases hu
      refine .inr ⟨p, ps, us, rfl, hss, hp, ?_⟩
      rintro rfl
      rw [List.append_nil] at hspace
      have hlast := List.getLast?_eq_some_getLast (List.cons_ne_nil t a)
      have := hl _ hlast
      rw [hspace _ hlast] at this; cases this

namespace Follows

variable {t : Token} {a sp ts ss : List Token}

omit hg in
theorem groupsOf {ws : List Value} (h : Follows sp ts ss) (hs : t.isSpace = false) (ho : t.kind ≠ .parenOpen)
    (hrun : RunOf stopsAtGroup false (t :: a ++ sp) ts) (hsp : ∀ u ∈ sp, u.isSpace = true)
    (hdrop : dropTrailingSpaces (t :: a) = t :: a) (hw : GroupsOf ss ws) :
    GroupsOf (t :: a ++ ss) (ofRun (t :: a) :: ws) := by
  rcases h with ⟨rfl, rfl⟩ | ⟨p, ps, us, rfl, rfl, hp, -⟩
  · have hnew : RunOf stopsAtGroup false (t :: a ++ []) [] := hrun.exchange hsp fun _ => .done
    rw [List.append_nil] at hnew
    have hall := GroupsOf.run hs ho hnew hw
    rwa [hdrop] at hall
  · have hnew : RunOf stopsAtGroup false (t :: a ++ [blank]) (p :: us) := hrun.exchange hsp fun _ =>
      .atom (by simp [stopsAtGroup, blank]) (by decide) (by decide)
        (.stop (by simp [stopsAtGroup, hp, blank, Token.isSpace]))
    have hfirst : dropTrailingSpaces (t :: (a ++ [blank])) = t :: a := by
      rw [← List.cons_append, dropTrailingSpaces_append (by simp [blank, Token.isSpace]), hdrop]
    have hall : GroupsOf (t :: (a ++ [blank]) ++ p :: us) _ := .run hs ho hnew (hw.tail rfl)
    rw [hfirst] at hall
    simpa using hall

omit hg in
theorem hasArgument_eq (h : Follows sp ts ss) (hsp : ∀ u ∈ sp, u.isSpace = true) (hb : Balanced (t :: a))
    (heq : hasArgument false 0 ss = hasArgument false 0 ts) :
    hasArgument false 0 (t :: (a ++ ss)) = hasArgument false 0 (t :: (a ++ sp ++ ts)) := by
  have happ : ∀ b : List Token, Apart b → hasArgument false 0 (t :: (a ++ b)) =
      (hasArgument false 0 (t :: a) || hasArgument false 0 b) :=
    fun b hapart => hasArgument_append (a := t :: a) hb hapart false
  have hapart : Apart ss ∧ Apart (sp ++ ts) := by
    rcases h with ⟨rfl, rfl⟩ | ⟨p, ps, us, -, rfl, -, hsn⟩
    · refine ⟨apart_nil, ?_⟩
      cases sp with
      | nil => exact apart_nil
      | cons s sp => exact apart_space (hsp s (List.mem_cons_self ..)) _
    · obtain ⟨s, sp, rfl⟩ := List.exists_cons_of_ne_nil hsn
      exact ⟨apart_space rfl _, apart_space (hsp s (List.mem_cons_self ..)) _⟩
  rw [List.append_assoc, happ _ hapart.1, happ _ hapart.2, hasArgument_spaces hsp, heq]

end Follows

omit hg in
theorem Regrouped.run {t : Token} {run ts ss : List Token} {vs : List Value} {rest : Text}
    (hs : t.isSpace = false) (ho : t.kind ≠ .parenOpen) (hrun : RunOf stopsAtGroup false (t :: run) ts)
    (hr : Reads (t :: run ++ ts) (')' :: rest)) (h : Regrouped g ts vs ss) :
    Regrouped g (t :: run ++ ts) (ofRun (dropTrailingSpaces (t :: run)) :: vs)
      (blank :: (dropTrailingSpaces (t :: run) ++ ss)) := by
  have hl : ∀ u, (dropTrailingSpaces (t :: run)).getLast? = some u → u.isSpace = false :=
    fun _ => getLast?_dropTrailingSpaces
  obtain ⟨sp, hsplit, hsp⟩ := exists_dropTrailingSpaces (t :: run)
  rw [dropTrailingSpaces_cons hs] at hl hsplit ⊢
  generalize ha : dropTrailingSpaces run = a at hl hsplit ⊢
  obtain rfl : run = a ++ sp := (List.cons.inj hsplit).2
  have hdrop : dropTrailingSpaces (t :: a) = t :: a := by
    rw [dropTrailingSpaces_cons hs, ← dropTrailingSpaces_append hsp, ha]
  have hf : Follows sp ts ss := h.follows hrun hl
  rw [← List.cons_append, List.append_assoc] at hr
  have hreads := reads_append.mp hr
  have hbal : Balanced (t :: a) := hrun.balanced.of_spaces (a := t :: a) hsp
  have harg := hf.hasArgument_eq hsp hbal h.argument
  refine ⟨.space rfl ?_, ?_, fun rest' => ⟨?_, ?_⟩, ?_, ?_, .inr ?_, fun hn => ?_, ?_⟩
  · rw [mapTokensOfValues, mapTokens_ofRun]; exact hf.groupsOf hs ho hrun hsp hdrop h.groups
  · rw [mapTokensOfValues, List.flatMap_cons, ← h.joined, mapTokens_ofRun, text_ofRun, joinTokens_cons,
      joinTokens_append]
    simp [blank]
  · refine stands_blank ?_
    rw [List.cons_append, joinTokens_cons, List.append_assoc]
    exact hreads.1.1.next_isBlank hs _
  · refine reads_append.mpr ⟨hreads.1.congr (replaces_of_delimited (by simp) ?_) hl, h.reads rest'⟩
    rcases hf with ⟨-, rfl⟩ | ⟨p, ps, us, -, rfl, -, -⟩ <;> rfl
  · rw [solid_cons_space rfl, List.cons_append, List.cons_append, solid_cons hs, solid_cons hs, solid_append,
      solid_append, solid_append, solid_spaces hsp, List.append_nil, h.solid_eq]
  · rw [hasArgument_space rfl]; exact harg
  · refine ⟨t, _, rfl, ?_⟩
    rw [List.cons_append, List.dropWhile_cons_of_neg (by simp [hs])]; rfl
  · rw [nestedCall?_space rfl]
    refine nestedCall?_run hs hsp hl ?_ harg hn
    rcases hf with ⟨-, hss⟩ | ⟨p, ps, us, hts, -, -, hsn⟩
    · exact .inl hss
    · exact .inr ⟨hsn, by rw [hts]; exact List.cons_ne_nil _ _⟩
  · intro u hu hk
    simp only [List.mem_cons, List.mem_append, List.cons_append] at hu ⊢
    rcases hu with rfl | rfl | hu | hu
    · cases hk
    · exact .inl rfl
    · exact .inr (.inl (.inl hu))
    · exact .inr (.inr (h.strings u hu hk))

theorem GroupsOf.regroup {ts : List Token} {vs : List Value} {rest : Text} (h : GroupsOf ts vs)
    (hr : Reads ts (')' :: rest)) : ∃ ss, Regrouped g ts vs ss := by
  induction h with
  | nil => exact ⟨[], .nil, rfl, fun _ => trivial, rfl, rfl, .inl ⟨rfl, rfl⟩, fun h => h, by simp⟩
  | @space t ts vs hs _ ih =>
    obtain ⟨ss, h⟩ := ih hr.2
    refine ⟨ss, h.groups, h.joined, h.reads, ?_, ?_, ?_, fun hn => h.nested ?_, fun t ht hk => ?_⟩
    · rw [solid_cons_space hs]; exact h.solid_eq
    · rw [hasArgument_space hs]; exact h.argument
    · rw [List.dropWhile_cons_of_pos hs]; exact h.head
    · rw [← nestedCall?_space hs]; exact hn
    · exact List.mem_cons_of_mem _ (h.strings t ht hk)
  | span hp hb hq _ ih =>
    obtain ⟨ss, h⟩ := ih (reads_append.mp hr).2.2
    exact ⟨_, h.span hg hp hb hq hr⟩
  | run hs ho hrun _ ih =>
    obtain ⟨ss, h⟩ := ih (reads_append.mp hr).2
    exact ⟨_, h.run hs ho hrun hr⟩

theorem GroupsOf.spell {ts : List Token} {vs : List Value} {rest : Text} (h : GroupsOf ts vs)
    (hr : Reads ts (')' :: rest)) (hn : nestedCall? ts = none) : ∃ ss,
      GroupsOf ss (mapTokensOfValues (inside g) vs) ∧ nestedCall? ss = none ∧ Spelled g ts (ofGroups vs) ss := by
  obtain ⟨ss, hss⟩ := h.regroup hg hr
  have hmarks := h.nameMarks fun t ht => hr.ne_nil ht
  have hj := hss.joined
  have hcount : (ofGroups vs).nameMarks.length = (solid ts).length := by
    rw [nameMarks_ofGroups, hmarks, List.length_replicate]
  have hnamed : upperMarked (ofGroups vs).nameMarks (solid ts) = solid ts := by
    rw [nameMarks_ofGroups, hmarks, upperMarked_false rfl]
  rcases hss.head with ⟨rfl, -⟩ | ⟨u, us, rfl, -⟩
  · refine ⟨[], hss.groups, hss.nested hn, ?_, hss.reads, ?_, hcount, hss.strings⟩
    · rw [mapTokens_ofGroups, text_ofGroups]
      cases hv : mapTokensOfValues (inside g) vs with
      | nil => rfl
      | cons v vs => rw [hv] at hj; cases hj
    · rw [hnamed]; exact hss.solid_eq
  · refine ⟨u :: us, hss.groups.tail rfl, ?_, ?_, fun rest => (hss.reads rest).2, ?_, hcount, ?_⟩
    · rw [← nestedCall?_space (t := blank) rfl]; exact hss.nested hn
    · rw [mapTokens_ofGroups, text_ofGroups]
      cases hv : mapTokensOfValues (inside g) vs with
      | nil => rw [hv] at hj; cases hj
      | cons v vs =>
        have hw := cons_unwords v.text (vs.map text)
        rw [hv] at hj
        rw [← List.map_cons, List.flatMap_map, ← hj] at hw
        exact (List.cons.inj hw).2.symm
    · rw [hnamed, ← solid_cons_space (t := blank) rfl]; exact hss.solid_eq
    · exact fun t ht => hss.strings t (List.mem_cons_of_mem _ ht)

end

end Value

end ControlLanguage
