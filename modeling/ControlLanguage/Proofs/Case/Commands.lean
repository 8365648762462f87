import ControlLanguage.Proofs.Case.Tokens
import ControlLanguage.Proofs.Spelling.Spaces

/-!
# Commands in another letter case

The reader compares no letters but those of command names, and these in
either case. So the tokens of a text in another case make the same tree, with
the texts of its values in that case: `Command.ofTokens_apply`.
-/

namespace ControlLanguage

open Token

/-! ## Trees -/

mutual

/-- The value with other texts in its scalars and tokens. The names in it stay as they are. -/
def Value.mapTexts (g : Text → Text) : Value → Value
  | .scalar t => .scalar (g t)
  | .group items => .group (mapTextsOfValues g items)
  | .expression tokens wrapped => .expression (tokens.map (Token.mapText g)) wrapped
  | .nested call => .nested (mapTextsOfCall g call)

def mapTextsOfValues (g : Text → Text) : List Value → List Value
  | [] => []
  | v :: vs => v.mapTexts g :: mapTextsOfValues g vs

def mapTextsOfCall (g : Text → Text) : Call Value → Call Value
  | ⟨name, bindings, comment, label⟩ => ⟨name, mapTextsOfBindings g bindings, comment, label⟩

def mapTextsOfBindings (g : Text → Text) : List (Binding Value) → List (Binding Value)
  | [] => []
  | ⟨name, value⟩ :: bs => ⟨name, value.mapTexts g⟩ :: mapTextsOfBindings g bs

end

def Command.mapTexts (g : Text → Text) (c : Command) : Command := mapTextsOfCall g c

/-! ## Reading -/

namespace Token

variable {g : Text → Text}

theorem mapText_kind (t : Token) : (t.mapText g).kind = t.kind := rfl

theorem mapText_position (t : Token) : (t.mapText g).position = t.position := rfl

theorem mapText_text (t : Token) : (t.mapText g).text = g t.text := rfl

end Token

/-- The texts of tokens are the same names as before. -/
def SameNames (g : Text → Text) (ts : List Token) : Prop :=
  ∀ t ∈ ts, (g t.text).upper = t.text.upper ∧ Word.isCommand (g t.text) = Word.isCommand t.text

section
variable {g : Text → Text} {ts : List Token}

theorem SameNames.subset {us : List Token} (h : SameNames g ts) (hs : us ⊆ ts) : SameNames g us :=
  fun t ht => h t (hs ht)

namespace Value

theorem ofRun_mapText (ts : List Token) : ofRun (ts.map (mapText g)) = (ofRun ts).mapTexts g :=
  ofRun_map mapText_kind (fun _ => rfl) (fun _ _ => rfl) ts

theorem ofPositional_mapText (ts : List Token) : ofPositional (ts.map (mapText g)) = (ofPositional ts).mapTexts g :=
  ofPositional_map mapText_kind (fun _ => rfl) (fun _ _ => rfl) ts

theorem ofGroups_mapTexts (hg : g [] = []) (vs : List Value) :
    ofGroups (mapTextsOfValues g vs) = (ofGroups vs).mapTexts g := by
  match vs with
  | [] => exact congrArg Value.scalar hg.symm
  | [_] => rfl
  | _ :: _ :: _ => rfl

theorem readGroups_mapText (keyword : Text) (ts : List Token) :
    readGroups keyword (ts.map (mapText g)) = (readGroups keyword ts).map (mapTextsOfValues g) := by
  induction hn : ts.length using Nat.strongRecOn generalizing ts with
  | _ n ih =>
    subst hn
    cases ts with
    | nil => rw [List.map_nil, readGroups]; rfl
    | cons t ts =>
      have hrun := takeRun_map (f := mapText g) mapText_kind mapText_position stopsAtGroup
        (fun _ _ => rfl) (some keyword) false (t :: ts)
      rw [List.map_cons] at hrun ⊢
      rw [readGroups_cons, readGroups_cons, isSpace_of_kinds mapText_kind, mapText_kind, Span.of?_map mapText_kind,
        hrun]
      split
      · exact ih ts.length (by simp) ts rfl
      · next hs =>
        split
        · cases hspan : Span.of? 0 ts with
          | none => rfl
          | some s =>
            have hlt := Span.length_rest_lt hspan
            have hrest := ih s.rest.length (by simp only [List.length_cons]; omega) s.rest rfl
            simp only [Option.map_some, hrest]
            cases readGroups keyword s.rest <;> rfl
        · cases hr : takeRun (some keyword) stopsAtGroup false (t :: ts) with
          | error e => rfl
          | ok r =>
            have hrest := ih r.2.length (takeRun_length_lt rfl hr) r.2 rfl
            simp only [Except.map, Except.bind, hrest, dropTrailingSpaces_map mapText_kind, ofRun_mapText]
            cases readGroups keyword r.2 <;> rfl

theorem readValue_mapText (hg : g [] = []) (h : SameNames g ts)
    (ih : ∀ us : List Token, us.length < ts.length → SameNames g us →
      readBindings false 0 (us.map (mapText g)) = (readBindings false 0 us).map (mapTextsOfBindings g))
    (keyword : Text) : readValue keyword (ts.map (mapText g)) = (readValue keyword ts).map (mapTexts g) := by
  rw [readValue_eq, readValue_eq, nestedCall?_map mapText_kind mapText_text fun t ht => (h t ht).2]
  cases hn : nestedCall? ts with
  | none =>
    simp only [Option.map_none, readGroups_mapText]
    cases readGroups keyword ts with
    | error e => rfl
    | ok vs => exact congrArg Except.ok (ofGroups_mapTexts hg vs)
  | some p =>
    obtain ⟨name, us⟩ := p
    obtain ⟨sp, t, hsplit, -, rfl, -⟩ := nestedCall?_split hn
    have hcall : SameNames g (t :: us) := h.subset (by rw [hsplit]; exact List.subset_append_right ..)
    have hupper : (g t.text).upper = t.text.upper := (hcall t (List.mem_cons_self ..)).1
    have hus := ih us (nestedCall?_length_lt hn) (hcall.subset (List.subset_cons_self ..))
    simp only [Option.map_some, hus, hupper]
    cases readBindings false 0 us <;> rfl

theorem readBindings_mapText (hg : g [] = []) (seen : Bool) (n : Nat) (ts : List Token) (h : SameNames g ts) :
    readBindings seen n (ts.map (mapText g)) = (readBindings seen n ts).map (mapTextsOfBindings g) := by
  induction hlen : ts.length using Nat.strongRecOn generalizing seen n ts with
  | _ len ih =>
    subst hlen
    cases ts with
    | nil => rw [List.map_nil, readBindings]; rfl
    | cons t ts =>
      have hrun := takeRun_map (f := mapText g) mapText_kind mapText_position stopsAtSpace
        (fun _ _ => rfl) none false (t :: ts)
      rw [List.map_cons] at hrun ⊢
      rw [readBindings_cons, readBindings_cons, isSpace_of_kinds mapText_kind, mapText_kind,
        argumentStart?_map mapText_kind, hrun, mapText_text, (h t (List.mem_cons_self ..)).1]
      split
      · exact ih ts.length (by simp) seen n ts (h.subset (List.subset_cons_self ..)) rfl
      · next hs =>
        split
        · rfl
        · cases harg : argumentStart? t ts with
          | none =>
            simp only [Option.map_none]
            split
            · rfl
            · cases hr : takeRun none stopsAtSpace false (t :: ts) with
              | error e => rfl
              | ok r =>
                have hlt := takeRun_length_lt (by simpa [stopsAtSpace] using hs) hr
                have hnames : SameNames g r.2 :=
                  h.subset (by rw [takeRun_eq_append hr]; exact List.subset_append_right ..)
                have hrest := ih r.2.length hlt false (n + 1) r.2 hnames rfl
                simp only [Except.map, Except.bind, hrest, ofPositional_mapText]
                cases readBindings false (n + 1) r.2 <;> rfl
          | some p =>
            obtain ⟨p, us⟩ := p
            obtain rfl := argumentStart?_eq harg
            simp only [Option.map_some, Span.of?_map mapText_kind]
            cases hspan : Span.of? 0 us with
            | none => rfl
            | some s =>
              have hlt := Span.length_rest_lt hspan
              have hlt' := Span.length_inner_lt hspan
              have hsplit := Span.eq_of_of? hspan
              have hnames : SameNames g (s.inner ++ s.close :: s.rest) :=
                h.subset (by rw [← hsplit]; exact fun u hu => List.mem_cons_of_mem _ (List.mem_cons_of_mem _ hu))
              have hrest := ih s.rest.length (by simp only [List.length_cons]; omega) true (n + 1) s.rest
                (hnames.subset fun u hu => by simp [hu]) rfl
              have hvalue := readValue_mapText hg (hnames.subset (List.subset_append_left ..))
                (fun ws hws hw => ih ws.length (by simp only [List.length_cons]; omega) false 0 ws hw rfl)
                  t.text.upper
              simp only [Option.map_some, hvalue, hrest]
              cases readValue t.text.upper s.inner with
              | error e => rfl
              | ok v => cases readBindings true (n + 1) s.rest <;> rfl

end Value

end

/-! ## Letter cases -/

section
variable {l : LetterCase} {t text : Text}

theorem upper_apply (h : PlainAscii t) : (l.apply t).upper = t.upper := by
  rw [← upper_folded, folded_apply h, upper_folded]

theorem Word.isCommand_apply (h : PlainAscii t) : isCommand (l.apply t) = isCommand t := by
  rw [← isCommand_folded, folded_apply h, isCommand_folded]

theorem sameNames_apply {ts : List Token} (h : ∀ u ∈ ts, PlainAscii u.text) : SameNames l.apply ts :=
  fun u hu => ⟨upper_apply (h u hu), Word.isCommand_apply (h u hu)⟩

end

/-- A text that is ASCII outside of literals is read in any letter case as it is written: its tokens are the same
but for the case of their texts, and so are the tree that they make or the fault that is found in them. -/
theorem Command.ofTokens_apply (l : LetterCase) {text : Text} (h : PlainAscii text) :
    ofText (l.apply text) = (ofText text).map (mapText l.apply) ∧
    (∀ t ∈ ofText text, t.kind = .string → l.apply t.text = t.text) ∧
    (marks (l.apply text)).filter (·.role.inLiteral) = (marks text).filter (·.role.inLiteral) ∧
    ∀ source name ts, ofText text = name :: ts →
      ofTokens (source.map l.apply) (name.mapText l.apply) (ts.map (mapText l.apply)) =
        ((ofTokens source name ts).map (mapTexts l.apply)).mapError (SyntaxError.within (source.map l.apply)) := by
  refine ⟨ofText_apply h, fun t ht hk => apply_of_mem_readFrom ht hk, literal_marks_apply h, ?_⟩
  intro source name ts htokens
  have hplain : ∀ t ∈ name :: ts, PlainAscii t.text := by
    rw [← htokens]
    exact fun t ht => plainAscii_of_mem_ofText h ht
  have hread := Value.readBindings_mapText l.apply_nil false 0 ts
    (sameNames_apply fun t ht => hplain t (List.mem_cons_of_mem _ ht))
  have hname := upper_apply (l := l) (hplain name (List.mem_cons_self ..))
  rw [ofTokens, ofTokens, hread, mapText_text, hname]
  cases Value.readBindings false 0 ts <;> rfl

theorem Command.ofTokens_apply_literal : PlainAscii "cmd a(b'x')".toList ∧
    ofText (LetterCase.upper.apply "cmd a(b'x')".toList) =
      [⟨.command, "CMD".toList, 0⟩, ⟨.space, [' '], 3⟩, ⟨.keyword, "A".toList, 4⟩, ⟨.parenOpen, ['('], 5⟩,
        ⟨.value, "B'x'".toList, 6⟩, ⟨.parenClose, [')'], 10⟩] ∧
    ofTokens none ⟨.command, "CMD".toList, 0⟩
      [⟨.space, [' '], 3⟩, ⟨.keyword, "A".toList, 4⟩, ⟨.parenOpen, ['('], 5⟩,
        ⟨.value, "B'x'".toList, 6⟩, ⟨.parenClose, [')'], 10⟩] =
      .ok ⟨"CMD".toList, [⟨"A".toList, .scalar "B'x'".toList⟩], none, none⟩ := by
  have hplain : PlainAscii "cmd a(b'x')".toList := by
    unfold PlainAscii; decide
  obtain ⟨htokens, -, -, htree⟩ := Command.ofTokens_apply .upper hplain
  have hcmd := htree none ⟨.command, "cmd".toList, 0⟩ [⟨.space, [' '], 3⟩, ⟨.keyword, "a".toList, 4⟩,
    ⟨.parenOpen, ['('], 5⟩, ⟨.value, "b'x'".toList, 6⟩, ⟨.parenClose, [')'], 10⟩] (by with_unfolding_all rfl)
  refine ⟨hplain, htokens.trans ?_, hcmd.trans ?_⟩
  · with_unfolding_all rfl
  · with_unfolding_all rfl

end ControlLanguage
