import ControlLanguage.Command.Parse
import ControlLanguage.Proofs.Spelling.Bindings

/-!
# The canonical text of a command

A command is read from the tokens of a text. What the reader has accepted is
collected in `ReadFrom`, and every text that has the spelled tokens behind
the name in upper case is read in the same way.
-/

namespace ControlLanguage

open Token

/-- A command that has been read from a text: its first token and the others. -/
structure ReadFrom (text : Text) (name : Token) (ts : List Token) (c : Command) : Prop where
  tokens : ofText text = name :: ts
  command : name.kind = .command
  isCommand : Word.isCommand name.text = true
  reads : Reads ts []
  delimited : startsDelimited (joinTokens ts) = true
  closed : ∀ t ∈ name :: ts, t.kind = .string → t.isClosedLiteral = true
  bindings : Value.BindingsOf false 0 ts c.bindings
  name_eq : c.name = name.text.upper
  comment : c.comment = none
  label : c.label = none

theorem check_eq_ok_iff {source : Option Text} {tokens ts : List Token} {t : Token} :
    check source tokens = .ok (t, ts) ↔
      tokens = t :: ts ∧ t.kind = .command ∧ ∀ u ∈ t :: ts, u.kind = .string → u.isClosedLiteral = true := by
  cases tokens with
  | nil => simp [check]
  | cons u us =>
    have hfind : (u :: us).find? (fun t => t.kind == .string && !t.isClosedLiteral) = none ↔
        ∀ t ∈ u :: us, t.kind = .string → t.isClosedLiteral = true := by
      rw [List.find?_eq_none]
      simp
    rw [check]
    by_cases hk : u.kind = .command
    · rw [if_neg (by simp [hk])]
      split
      · next v hv =>
        constructor
        · intro h; cases h
        · rintro ⟨he, -, hc⟩
          rw [he] at hfind hv
          rw [hfind.mpr hc] at hv; cases hv
      · next hv =>
        constructor
        · intro h
          obtain ⟨rfl, rfl⟩ := Prod.mk.inj (Except.ok.inj h)
          exact ⟨rfl, hk, hfind.mp hv⟩
        · rintro ⟨he, -, -⟩
          obtain ⟨rfl, rfl⟩ := List.cons.inj he; rfl
    · rw [if_pos hk]
      constructor
      · intro h; cases h
      · rintro ⟨he, hc, -⟩
        obtain ⟨rfl, -⟩ := List.cons.inj he
        exact absurd hc hk

theorem ofTokens_eq_ok_iff {source : Option Text} {name : Token} {ts : List Token} {c : Command} :
    Command.ofTokens source name ts = .ok c ↔
      Value.BindingsOf false 0 ts c.bindings ∧ c = { name := name.text.upper, bindings := c.bindings } := by
  rw [Command.ofTokens]
  split
  · next e he =>
    constructor
    · intro h; cases h
    · rintro ⟨hb, -⟩
      rw [hb.readBindings] at he; cases he
  · next bs hbs =>
    constructor
    · rintro ⟨⟩
      exact ⟨Value.readBindings_iff.mp hbs, rfl⟩
    · rintro ⟨hb, hc⟩
      rw [hb.readBindings] at hbs
      obtain rfl := Except.ok.inj hbs
      rw [← hc]

theorem readFrom_of_ofTokens {source source' : Option Text} {text : Text} {name : Token} {ts : List Token}
    {c : Command} (h : check source (ofText text) = .ok (name, ts))
    (hc : Command.ofTokens source' name ts = .ok c) : ReadFrom text name ts c := by
  obtain ⟨htokens, hk, hclosed⟩ := check_eq_ok_iff.mp h
  obtain ⟨hbs, heq⟩ := ofTokens_eq_ok_iff.mp hc
  obtain ⟨hn, hd, hr⟩ := reads_ofText htokens hk
  refine ⟨htokens, hk, hn, hr, hd, hclosed, hbs, ?_, ?_, ?_⟩ <;> rw [heq]

theorem exists_readFrom {text : Text} {c : Command} (h : Command.parse text = .ok c) :
    ∃ rest body name ts m, takeLabel text = (c.label, rest) ∧ takeComment rest = (body, c.comment) ∧
      ReadFrom body name ts m ∧ c.name = m.name ∧ c.bindings = m.bindings := by
  rw [Command.parse] at h
  rcases hl : takeLabel text with ⟨label, rest⟩
  rcases hb : takeComment rest with ⟨body, comment⟩
  simp only [hl, hb] at h
  split at h
  · cases h
  · next name ts hcheck =>
    split at h
    · cases h
    · next m hm =>
      cases h
      exact ⟨rest, body, name, ts, m, rfl, hb, readFrom_of_ofTokens hcheck hm, rfl, rfl⟩

theorem solid_congr {ts us : List Token} (h : us.map bare = ts.map bare) : solid us = solid ts := by
  have hs : ∀ l : List Token, solid l = (l.map bare).filter fun p => !(p.1 == .space) := by
    intro l; rw [List.filter_map]; rfl
  rw [hs, hs, h]

theorem closed_of_bare {ts us : List Token} (hb : us.map bare = ts.map bare)
    (h : ∀ t ∈ ts, t.kind = .string → t.isClosedLiteral = true) :
    ∀ u ∈ us, u.kind = .string → u.isClosedLiteral = true := by
  intro u hu hk
  have hmem : u.bare ∈ ts.map bare := by rw [← hb]; exact List.mem_map_of_mem hu
  obtain ⟨v, hv, hbare⟩ := List.mem_map.mp hmem
  obtain ⟨hkind, htext⟩ := Prod.mk.inj hbare
  have := h v hv (hkind.trans hk)
  rwa [isClosedLiteral, htext] at this

namespace ReadFrom

variable {text : Text} {name : Token} {ts : List Token} {c : Command}

theorem upper_name (h : ReadFrom text name ts c) :
    Word.isCommand c.name = true ∧ c.name.upper = c.name := by
  rw [h.name_eq]
  exact Word.isCommand_upper h.isCommand

theorem respell {g : List Token → List Token} (h : ReadFrom text name ts c) (hg : Tidying g) :
    ∃ rs, Value.Respelled g false 0 ts c.bindings [] rs :=
  h.bindings.respell hg h.reads (.inl rfl) rfl

/-- The command comes back, up to the places of its tokens, from every text that has the spelled
tokens behind its name. -/
theorem reread {g : List Token → List Token} {rs us : List Token} {text' : Text} (h : ReadFrom text name ts c)
    (hrs : Value.Respelled g false 0 ts c.bindings [] rs)
    (hu : ofText text' = ⟨.command, c.name, 0⟩ :: us) (hb : us.map bare = rs.map bare) :
    ∃ m, ReadFrom text' ⟨.command, c.name, 0⟩ us m ∧ m.name = c.name ∧
      mapTokensOfBindings unplacing m.bindings =
        mapTokensOfBindings unplacing (mapTokensOfBindings (inside g) c.bindings) := by
  obtain ⟨bs, hbs, he⟩ := hrs.bindings.of_unplaced (map_unplaced_of_bare hb)
  obtain ⟨hn, hd, hr⟩ := reads_ofText hu rfl
  refine ⟨{ name := c.name.upper, bindings := bs }, ⟨hu, rfl, hn, hr, hd, ?_, hbs, rfl, rfl, rfl⟩,
    h.upper_name.2, he⟩
  refine List.forall_mem_cons.mpr ⟨by rintro ⟨⟩, closed_of_bare hb fun v hv hk => ?_⟩
  exact h.closed v (List.mem_cons_of_mem _ (hrs.strings v hv hk)) hk

theorem ofTokens (h : ReadFrom text name ts c) (source : Option Text) :
    Command.ofTokens source name ts = .ok c := by
  obtain ⟨n, bs, comment, label⟩ := c
  refine ofTokens_eq_ok_iff.mpr ⟨h.bindings, ?_⟩
  rw [← h.name_eq, show comment = none from h.comment, show label = none from h.label]

theorem check (h : ReadFrom text name ts c) (source : Option Text) :
    Token.check source (ofText text) = .ok (name, ts) :=
  check_eq_ok_iff.mpr ⟨h.tokens, h.command, h.closed⟩

theorem text_eq (h : ReadFrom text name ts c) :
    c.text = c.name ++ c.bindings.flatMap fun b => ' ' :: b.text := by
  rw [Call.text, h.label, Call.body, unwords_cons, List.flatMap_map]
  rfl

theorem ofText_text (h : ReadFrom text name ts c) : ∃ rs us, Value.Respelled id false 0 ts c.bindings [] rs ∧
    ofText c.text = ⟨.command, c.name, 0⟩ :: us ∧ us.map bare = rs.map bare := by
  obtain ⟨rs, hrs⟩ := h.respell .id
  refine ⟨rs, readFrom false c.name.length (joinTokens rs), hrs, ?_, bare_readFrom hrs.reads _⟩
  have hj := hrs.joined
  rw [mapTokensOfBindings_eq (by intro w ts; cases w <;> rfl)] at hj
  rw [h.text_eq, ← hj]
  refine ofText_command h.upper_name.1 ?_
  rcases hrs.head with ⟨rfl, -⟩ | ⟨u, us, rfl⟩ <;> rfl

end ReadFrom

end ControlLanguage
