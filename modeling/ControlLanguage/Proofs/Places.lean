import ControlLanguage.Proofs.Kinds
import ControlLanguage.Proofs.Tree

/-!
# The places of tokens

A tree keeps the tokens of its expressions with their places. Reading never
looks at the places: tokens that differ in them alone make trees that differ
in them alone.
-/

namespace ControlLanguage

def Token.unplaced (t : Token) : Token := { t with position := 0 }

def unplacing (_ : Bool) (ts : List Token) : List Token := ts.map Token.unplaced

/-- The command without the places of its tokens. -/
def Command.unplaced (c : Command) : Command := mapTokensOfCall unplacing c

namespace Token

@[simp] theorem unplaced_kind (t : Token) : t.unplaced.kind = t.kind := rfl

@[simp] theorem unplaced_text (t : Token) : t.unplaced.text = t.text := rfl

@[simp] theorem unplaced_isSpace (t : Token) : t.unplaced.isSpace = t.isSpace := rfl

theorem eq_of_unplaced {t u : Token} (h : t.unplaced = u.unplaced) : t.kind = u.kind ∧ t.text = u.text := by
  obtain ⟨hk, ht, -⟩ := Token.mk.inj h
  exact ⟨hk, ht⟩

theorem map_unplaced_of_bare {ts us : List Token} (h : us.map bare = ts.map bare) :
    us.map unplaced = ts.map unplaced := by
  have hb : ∀ l : List Token, l.map unplaced = (l.map bare).map fun p => ⟨p.1, p.2, 0⟩ := by
    intro l; rw [List.map_map]; rfl
  rw [hb, hb, h]

end Token

open Token

/-! ## Reading does not see them -/

namespace Value

theorem ofRun_map_unplaced (ts : List Token) : ofRun (ts.map unplaced) = (ofRun ts).mapTokens unplacing :=
  ofRun_map unplaced_kind (fun _ => rfl) (fun _ _ => rfl) ts

theorem ofPositional_map_unplaced (ts : List Token) :
    ofPositional (ts.map unplaced) = (ofPositional ts).mapTokens unplacing :=
  ofPositional_map unplaced_kind (fun _ => rfl) (fun _ _ => rfl) ts

theorem nestedCall?_map_unplaced (ts : List Token) : nestedCall? (ts.map unplaced) =
    (nestedCall? ts).map fun p => (p.1, p.2.map unplaced) :=
  nestedCall?_map (g := id) unplaced_kind unplaced_text fun _ _ => rfl

end Value

/-! ## Trees of tokens at other places -/

section
variable {ts us run rest : List Token}

theorem exists_span_of_unplaced {p q : Token} {inner : List Token}
    (hu : us.map unplaced = (p :: inner ++ q :: rest).map unplaced) :
    ∃ p' inner' q' rest', us = p' :: inner' ++ q' :: rest' ∧ p'.unplaced = p.unplaced ∧
      inner'.map unplaced = inner.map unplaced ∧ q'.kind = q.kind ∧ rest'.map unplaced = rest.map unplaced := by
  rw [List.map_append, List.map_cons, List.map_cons] at hu
  obtain ⟨a, b, rfl, ha, hb⟩ := List.map_eq_append_iff.mp hu
  obtain ⟨p', inner', rfl, hp, hi⟩ := List.map_eq_cons_iff.mp ha
  obtain ⟨q', rest', rfl, hq, hr⟩ := List.map_eq_cons_iff.mp hb
  exact ⟨p', inner', q', rest', rfl, hp, hi, (eq_of_unplaced hq).1, hr⟩

theorem Balanced.of_unplaced (h : Balanced ts) (hu : us.map unplaced = ts.map unplaced) : Balanced us := by
  rw [Balanced, ← openAfter_map unplaced_kind, hu, openAfter_map unplaced_kind]; exact h

theorem RunOf.of_unplaced {stops : Bool → Token → Bool} (hs : ∀ b t, stops b t.unplaced = stops b t)
    {after : Bool} (h : RunOf stops after run rest) {run' rest' : List Token}
    (hr : run'.map unplaced = run.map unplaced) (hu : rest'.map unplaced = rest.map unplaced) :
    RunOf stops after run' rest' := by
  have hstops : ∀ {b t u}, t.unplaced = u.unplaced → stops b t = stops b u := by
    intro b t u h; rw [← hs, h, hs]
  induction h generalizing run' with
  | done =>
    rw [List.map_eq_nil_iff.mp hr, List.map_eq_nil_iff.mp hu]; exact .done
  | stop hstop =>
    obtain ⟨u, us, rfl, ht, -⟩ := List.map_eq_cons_iff.mp hu
    rw [List.map_eq_nil_iff.mp hr]
    exact .stop (by rw [hstops ht]; exact hstop)
  | atom hstop ho hc _ ih =>
    obtain ⟨u, us, rfl, ht, hr'⟩ := List.map_eq_cons_iff.mp hr
    obtain ⟨hk, -⟩ := eq_of_unplaced ht
    refine .atom (by rw [hstops ht]; exact hstop) (by rw [hk]; exact ho) (by rw [hk]; exact hc) ?_
    rw [Token.isSpace, hk]
    exact ih hr' hu
  | span hstop hp hb hq _ ih =>
    obtain ⟨p', inner', q', run', rfl, hp', hi, hq', hr'⟩ := exists_span_of_unplaced hr
    refine .span (by rw [hstops hp']; exact hstop) ?_ (hb.of_unplaced hi) (hq'.trans hq) (ih hr' hu)
    rw [(eq_of_unplaced hp').1]; exact hp

namespace Value

theorem GroupsOf.of_unplaced {vs : List Value} (h : GroupsOf ts vs)
    (hu : us.map unplaced = ts.map unplaced) : ∃ ws, GroupsOf us ws ∧
      mapTokensOfValues unplacing ws = mapTokensOfValues unplacing vs := by
  induction h generalizing us with
  | nil => rw [List.map_eq_nil_iff.mp hu]; exact ⟨[], .nil, rfl⟩
  | space hs _ ih =>
    obtain ⟨u, us, rfl, ht, hu'⟩ := List.map_eq_cons_iff.mp hu
    obtain ⟨ws, hw, he⟩ := ih hu'
    exact ⟨ws, .space (by rw [Token.isSpace, (eq_of_unplaced ht).1]; exact hs) hw, he⟩
  | span hp hb hq _ ih =>
    obtain ⟨p', inner', q', rest', rfl, hp', hi, hq', hu'⟩ := exists_span_of_unplaced hu
    obtain ⟨ws, hw, he⟩ := ih hu'
    refine ⟨_, .span ?_ (hb.of_unplaced hi) (hq'.trans hq) hw, ?_⟩
    · rw [(eq_of_unplaced hp').1]; exact hp
    · rw [mapTokensOfValues, mapTokensOfValues, mapTokens, mapTokens, unplacing, hi, he]; rfl
  | @run t run rest vs hs ho hr _ ih =>
    rw [List.map_append] at hu
    obtain ⟨a, b, rfl, ha, hb⟩ := List.map_eq_append_iff.mp hu
    have hrun := hr.of_unplaced (fun _ _ => rfl) ha hb
    have hval : (ofRun (dropTrailingSpaces a)).mapTokens unplacing =
        (ofRun (dropTrailingSpaces (t :: run))).mapTokens unplacing := by
      rw [← ofRun_map_unplaced, ← dropTrailingSpaces_map unplaced_kind, ha, dropTrailingSpaces_map unplaced_kind,
        ofRun_map_unplaced]
    obtain ⟨u, us, rfl, ht, -⟩ := List.map_eq_cons_iff.mp ha
    obtain ⟨ws, hw, he⟩ := ih hb
    refine ⟨_, .run ?_ ?_ hrun hw, ?_⟩
    · rw [Token.isSpace, (eq_of_unplaced ht).1]; exact hs
    · rw [(eq_of_unplaced ht).1]; exact ho
    · rw [mapTokensOfValues, mapTokensOfValues, he]
      exact congrArg (· :: _) hval

theorem BindingsOf.of_unplaced {seen : Bool} {n : Nat} {bs : List (Binding Value)}
    (h : BindingsOf seen n ts bs) (hu : us.map unplaced = ts.map unplaced) : ∃ cs, BindingsOf seen n us cs ∧
      mapTokensOfBindings unplacing cs = mapTokensOfBindings unplacing bs := by
  induction h generalizing us with
  | nil => rw [List.map_eq_nil_iff.mp hu]; exact ⟨[], .nil, rfl⟩
  | space hs _ ih =>
    obtain ⟨u, us, rfl, ht, hu'⟩ := List.map_eq_cons_iff.mp hu
    obtain ⟨cs, hc, he⟩ := ih hu'
    exact ⟨cs, .space (by rw [Token.isSpace, (eq_of_unplaced ht).1]; exact hs) hc, he⟩
  | groups ht hp hb hq hn hg _ ih =>
    obtain ⟨t', _, rfl, ht', hu'⟩ := List.map_eq_cons_iff.mp hu
    obtain ⟨p', inner', q', rest', rfl, hp', hi, hq', hr⟩ := exists_span_of_unplaced hu'
    obtain ⟨hk, htext⟩ := eq_of_unplaced ht'
    obtain ⟨ws, hw, hv⟩ := hg.of_unplaced hi
    obtain ⟨cs, hc, he⟩ := ih hr
    have hn' : nestedCall? inner' = none := by
      have := nestedCall?_map_unplaced inner'
      rw [hi, nestedCall?_map_unplaced, hn] at this
      exact Option.map_eq_none_iff.mp this.symm
    have hp₀ := (eq_of_unplaced hp').1.trans hp
    refine ⟨_, .groups (hk.trans ht) hp₀ (hb.of_unplaced hi) (hq'.trans hq) hn' hw hc, ?_⟩
    rw [mapTokensOfBindings, mapTokensOfBindings, he, mapTokensOfBinding, mapTokensOfBinding,
      mapTokens_ofGroups, mapTokens_ofGroups, hv, htext]
  | call ht hp hb hq hn _ _ ihc ih =>
    obtain ⟨t', _, rfl, ht', hu'⟩ := List.map_eq_cons_iff.mp hu
    obtain ⟨p', inner', q', rest', rfl, hp', hi, hq', hr⟩ := exists_span_of_unplaced hu'
    obtain ⟨hk, htext⟩ := eq_of_unplaced ht'
    obtain ⟨cs, hc, he⟩ := ih hr
    have hn' := nestedCall?_map_unplaced inner'
    rw [hi, nestedCall?_map_unplaced, hn] at hn'
    obtain ⟨⟨name, ws⟩, hw, hn'⟩ := Option.map_eq_some_iff.mp hn'.symm
    obtain ⟨rfl, hws⟩ := Prod.mk.inj hn'
    obtain ⟨ds, hd, hde⟩ := ihc hws
    have hp₀ := (eq_of_unplaced hp').1.trans hp
    refine ⟨_, .call (hk.trans ht) hp₀ (hb.of_unplaced hi) (hq'.trans hq) hw hd hc, ?_⟩
    rw [mapTokensOfBindings, mapTokensOfBindings, he, mapTokensOfBinding, mapTokensOfBinding,
      mapTokens, mapTokens, mapTokensOfCall, mapTokensOfCall, hde, htext]
  | @positional n t run rest bs hs harg hr _ ih =>
    rw [List.map_append] at hu
    obtain ⟨a, b, rfl, ha, hb⟩ := List.map_eq_append_iff.mp hu
    have hrun := hr.of_unplaced (fun _ _ => rfl) ha hb
    have hval : (ofPositional a).mapTokens unplacing = (ofPositional (t :: run)).mapTokens unplacing := by
      rw [← ofPositional_map_unplaced, ha, ofPositional_map_unplaced]
    obtain ⟨u, us, rfl, ht, hus⟩ := List.map_eq_cons_iff.mp ha
    obtain ⟨cs, hc, he⟩ := ih hb
    have harg' : argumentStart? u (us ++ b) = none := by
      have := argumentStart?_map unplaced_kind u (us ++ b)
      rw [List.map_append, hus, hb, ht, ← List.map_append, argumentStart?_map unplaced_kind, harg] at this
      exact Option.map_eq_none_iff.mp this.symm
    refine ⟨_, .positional ?_ harg' hrun hc, ?_⟩
    · rw [Token.isSpace, (eq_of_unplaced ht).1]; exact hs
    · rw [mapTokensOfBindings, mapTokensOfBindings, he, mapTokensOfBinding, mapTokensOfBinding, hval]

end Value

end

end ControlLanguage
