import ControlLanguage.Proofs.Lines.Reflow
import ControlLanguage.Proofs.RoundTrip

/-!
# Units and the canonical text

A tree is rendered in two ways, as its canonical text and as its units. Put
together with single blanks, the units are the canonical text of the tree
without the spaces next to the parentheses of wrapped expressions, so the two
renderings agree just where there are no such spaces:
`Command.unwords_units`.
-/

namespace ControlLanguage

open Token

mutual

/-- Whether some wrapped expression in a value has a space next to one of its parentheses. -/
def Value.isPadded : Value → Bool
  | .scalar _ => false
  | .group items => isPaddedInValues items
  | .expression tokens wrapped =>
    wrapped && (tokens.head?.any (·.isSpace) || tokens.getLast?.any (·.isSpace))
  | .nested call => isPaddedInCall call

def isPaddedInValues : List Value → Bool
  | [] => false
  | v :: vs => v.isPadded || isPaddedInValues vs

def isPaddedInCall : Call Value → Bool
  | ⟨_, bindings, _, _⟩ => isPaddedInBindings bindings

def isPaddedInBindings : List (Binding Value) → Bool
  | [] => false
  | ⟨_, value⟩ :: bs => value.isPadded || isPaddedInBindings bs

end

def Command.isPadded (c : Command) : Bool := isPaddedInCall c

/-- The command without the spaces next to the parentheses of wrapped expressions. -/
def Command.trimmed (c : Command) : Command := mapTokensOfCall (inside trimSpaces) c

/-! ## Trees without padding -/

section
variable {ts : List Token}

theorem dropWhile_isSpace_eq_self (h : ∀ t, ts.head? = some t → t.isSpace = false) :
    ts.dropWhile Token.isSpace = ts := by
  cases ts with
  | nil => rfl
  | cons t ts => exact List.dropWhile_cons_of_neg (by simp [h t rfl])

theorem trimSpaces_eq_self_iff : trimSpaces ts = ts ↔
    (ts.head?.any (·.isSpace) || ts.getLast?.any (·.isSpace)) = false := by
  rw [Bool.or_eq_false_iff, Option.any_eq_false, Option.any_eq_false]
  constructor
  · intro h
    rw [← h]
    exact ⟨fun _ => head?_trimSpaces, fun _ => getLast?_dropTrailingSpaces⟩
  · rintro ⟨hhead, hlast⟩
    rw [trimSpaces, dropWhile_isSpace_eq_self hhead, Value.dropTrailingSpaces, dropWhile_isSpace_eq_self,
      List.reverse_reverse]
    rwa [List.head?_reverse]

theorem map_unplaced_trimSpaces_iff :
    (trimSpaces ts).map unplaced = ts.map unplaced ↔ trimSpaces ts = ts := by
  refine ⟨fun h => ?_, fun h => by rw [h]⟩
  obtain ⟨sp, sp', hs, -, -⟩ := exists_trimSpaces ts
  have hinfix : trimSpaces ts <:+: ts := ⟨sp, sp', by rw [List.append_assoc, ← hs]⟩
  have hlen := congrArg List.length h
  rw [List.length_map, List.length_map] at hlen
  exact hinfix.eq_of_length hlen

end

mutual

theorem Value.unplacing_trimmed_iff (v : Value) :
    (v.mapTokens (inside trimSpaces)).mapTokens unplacing = v.mapTokens unplacing ↔ v.isPadded = false := by
  match v with
  | .scalar t => exact iff_of_true rfl rfl
  | .group items =>
    rw [Value.mapTokens, Value.mapTokens, Value.mapTokens, Value.group.injEq, Value.isPadded]
    exact unplacing_trimmedValues_iff items
  | .expression ts false => exact iff_of_true rfl rfl
  | .expression ts true =>
    rw [Value.mapTokens, Value.mapTokens, Value.mapTokens, Value.expression.injEq, and_iff_left rfl, Value.isPadded,
      Bool.true_and, ← trimSpaces_eq_self_iff]
    exact map_unplaced_trimSpaces_iff
  | .nested c =>
    rw [Value.mapTokens, Value.mapTokens, Value.mapTokens, Value.nested.injEq, Value.isPadded]
    exact unplacing_trimmedCall_iff c

theorem unplacing_trimmedValues_iff (vs : List Value) :
    mapTokensOfValues unplacing (mapTokensOfValues (inside trimSpaces) vs) = mapTokensOfValues unplacing vs ↔
      isPaddedInValues vs = false := by
  match vs with
  | [] => exact iff_of_true rfl rfl
  | v :: vs =>
    rw [mapTokensOfValues, mapTokensOfValues, mapTokensOfValues, List.cons.injEq, isPaddedInValues,
      Bool.or_eq_false_iff]
    exact and_congr v.unplacing_trimmed_iff (unplacing_trimmedValues_iff vs)

theorem unplacing_trimmedCall_iff (c : Call Value) :
    mapTokensOfCall unplacing (mapTokensOfCall (inside trimSpaces) c) = mapTokensOfCall unplacing c ↔
      isPaddedInCall c = false := by
  match c with
  | ⟨name, bindings, comment, label⟩ =>
    rw [mapTokensOfCall, mapTokensOfCall, mapTokensOfCall, Call.mk.injEq, isPaddedInCall]
    simpa using unplacing_trimmedBindings_iff bindings

theorem unplacing_trimmedBindings_iff (bs : List (Binding Value)) :
    mapTokensOfBindings unplacing (mapTokensOfBindings (inside trimSpaces) bs) = mapTokensOfBindings unplacing bs ↔
      isPaddedInBindings bs = false := by
  match bs with
  | [] => exact iff_of_true rfl rfl
  | ⟨name, v⟩ :: bs =>
    rw [mapTokensOfBindings, mapTokensOfBindings, mapTokensOfBindings, List.cons.injEq, mapTokensOfBinding,
      mapTokensOfBinding, mapTokensOfBinding, Binding.mk.injEq, and_iff_right rfl, isPaddedInBindings,
      Bool.or_eq_false_iff]
    exact and_congr v.unplacing_trimmed_iff (unplacing_trimmedBindings_iff bs)

end

/-! ## The two renderings -/

section
variable {body : Text} {name : Token} {ts : List Token} {c m : Command}

theorem Command.trimmed_eq_mk (c : Command) :
    c.trimmed = { c with bindings := mapTokensOfBindings (inside trimSpaces) c.bindings } :=
  mapTokensOfCall_eq_mk _ c

theorem Command.body_congr (hname : m.name = c.name) (hbindings : m.bindings = c.bindings) : m.body = c.body := by
  rw [Call.body, Call.body, hname, hbindings]

theorem Command.name_append_units (c : Command) : ∃ rest, c.name ++ rest = Text.unwords (c.name :: c.units) ∧
    (c.units = [] ∧ rest = [] ∨ c.units ≠ [] ∧ ∃ n, rest = Text.blanks (n + 1) ++ Text.unwords c.units) := by
  refine ⟨c.units.flatMap (' ' :: ·), (unwords_cons ..).symm, ?_⟩
  rcases hu : c.units with _ | ⟨u, us⟩
  · exact .inl ⟨rfl, rfl⟩
  · exact .inr ⟨List.cons_ne_nil u us, 0, (cons_unwords ..).symm⟩

namespace ReadFrom

theorem text_eq_body (h : ReadFrom body name ts c) : c.text = c.body := by
  rw [Call.text, h.label]; rfl

theorem unique (h : ReadFrom body name ts c) (h' : ReadFrom body name ts m) : c = m :=
  Except.ok.inj ((h.ofTokens none).symm.trans (h'.ofTokens none))

theorem unwords_units_eq_trimmed (h : ReadFrom body name ts c) :
    Text.unwords (c.name :: c.units) = c.trimmed.body := by
  rw [Command.trimmed_eq_mk, Call.body, unwords_cons, unwords_cons, List.flatMap_map]
  exact congrArg (c.name ++ ·) (h.bindings.flatMap_text h.reads).symm

/-- Both renderings are read as the tree that they show, so they are the same only if the trees are. -/
theorem unwords_units_iff (h : ReadFrom body name ts c) :
    Text.unwords (c.name :: c.units) = c.body ↔ c.trimmed.unplaced = c.unplaced := by
  constructor
  · intro heq
    obtain ⟨rest, hrest, hr⟩ := c.name_append_units
    obtain ⟨rs, us, hrs, hus, hb⟩ := h.ofText_units hr
    obtain ⟨rs', us', hrs', hus', hb'⟩ := h.ofText_text
    rw [hrest, heq, ← h.text_eq_body] at hus
    obtain ⟨m, hm, -, hunits⟩ := h.reread hrs hus hb
    obtain ⟨m', hm', -, htext⟩ := h.reread hrs' hus' hb'
    obtain ⟨-, rfl⟩ := List.cons.inj (hus.symm.trans hus')
    rw [← hm.unique hm', hunits, mapTokensOfBindings_eq (f := inside id) (by intro w ts; cases w <;> rfl)] at htext
    rw [Command.trimmed_eq_mk, Command.unplaced, Command.unplaced, mapTokensOfCall_eq_mk, mapTokensOfCall_eq_mk]
    exact congrArg (fun bs => { c with bindings := bs }) htext
  · intro heq
    have hlabel : c.trimmed.label = none := by rw [Command.trimmed_eq_mk]; exact h.label
    have htext := Command.text_congr heq
    rw [h.text_eq_body, Call.text, hlabel] at htext
    exact h.unwords_units_eq_trimmed.trans htext

end ReadFrom

/-- The units of a command are its canonical text without the spaces next to the parentheses of wrapped expressions,
and all of its canonical text just if there are no such spaces. -/
theorem Command.unwords_units {text : Text} (h : Command.parse text = .ok c) :
    Text.unwords (c.name :: c.units) = c.trimmed.body ∧
      (Text.unwords (c.name :: c.units) = c.body ↔ c.isPadded = false) := by
  obtain ⟨_, body, name, ts, m, -, -, hm, hname, hbindings⟩ := exists_readFrom h
  have hunits : Text.unwords (c.name :: c.units) = Text.unwords (m.name :: m.units) := by
    rw [Command.units, Command.units, hname, hbindings]
  have htrimmed : c.trimmed.body = m.trimmed.body := by
    rw [trimmed_eq_mk, trimmed_eq_mk]
    exact body_congr hname (by rw [hbindings])
  have hpadded : c.isPadded = m.isPadded := by
    obtain ⟨_, _, _, _⟩ := c
    obtain ⟨_, _, _, _⟩ := m
    exact congrArg isPaddedInBindings hbindings
  rw [hunits, htrimmed, body_congr hname hbindings, hpadded]
  refine ⟨hm.unwords_units_eq_trimmed, ?_⟩
  rw [hm.unwords_units_iff]
  exact unplacing_trimmedCall_iff m

end

/-- Blanks in a literal and in the middle of a wrapped expression are not next to its parentheses. -/
theorem Command.unwords_units_nested :
    ∃ c, Command.parse "l: cmd a( (x  y) '( z )' ) b(c  d((e)) )".toList = .ok c ∧
    Text.unwords (c.name :: c.units) = c.body ∧ c.body = "CMD A((x y) '( z )') B(C D((e)))".toList := by
  have hparse : Command.parse "l: cmd a( (x  y) '( z )' ) b(c  d((e)) )".toList = .ok ⟨"CMD".toList,
      [⟨['A'], .group [.expression [⟨.keyword, ['x'], 8⟩, ⟨.space, [' '], 9⟩, ⟨.keyword, ['y'], 11⟩] true,
          .scalar "'( z )'".toList]⟩,
        ⟨['B'], .nested ⟨['C'], [⟨['D'], .expression [⟨.keyword, ['e'], 32⟩] true⟩], none, none⟩⟩],
      none, some ['L']⟩ := by
    with_unfolding_all rfl
  obtain ⟨-, hiff⟩ := Command.unwords_units hparse
  exact ⟨_, hparse, hiff.mpr (by decide), by with_unfolding_all rfl⟩

/-- The blank in front of the parenthesis is in the canonical text but in no unit. -/
theorem Command.unwords_units_padded : ∃ c, Command.parse "CMD A((X ))".toList = .ok c ∧
    c.body = "CMD A((X ))".toList ∧ Text.unwords (c.name :: c.units) = "CMD A((X))".toList := by
  refine ⟨⟨"CMD".toList, [⟨"A".toList, .expression [⟨.keyword, "X".toList, 7⟩, ⟨.space, [' '], 8⟩] true⟩], none,
    none⟩,
    ?_, ?_, ?_⟩
  · with_unfolding_all rfl
  · with_unfolding_all rfl
  · with_unfolding_all rfl

end ControlLanguage
