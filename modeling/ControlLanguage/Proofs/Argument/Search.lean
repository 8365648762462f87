import ControlLanguage.Proofs.Argument.Place
import ControlLanguage.Proofs.Spelling.Command
import ControlLanguage.Proofs.Token.First

/-!
# Arguments in the text and among the tokens

The argument of a keyword is sought in the text, by the upper case of the
text at the same offset; the reader finds it among the tokens. Both find the
same argument if the text in front of it is as long as its upper case:
`keywordArgument_eq`.
-/

namespace ControlLanguage

open Token

/-! ## Parameters -/

/-- The first parameter outside parentheses with a keyword: its opening parenthesis and the span behind it. -/
def firstArgument? (keyword : Text) (tokens : List Token) : Option (Token × Span) :=
  match tokens with
  | [] => none
  | t :: ts =>
    match _argument : argumentStart? t ts with
    | some (p, us) =>
      match _closed : Span.of? 0 us with
      | none => none
      | some s => if t.text.upper = keyword then some (p, s) else firstArgument? keyword s.rest
    | none =>
      if t.kind = .parenOpen then
        match _closed : Span.of? 0 ts with
        | none => none
        | some s => firstArgument? keyword s.rest
      else firstArgument? keyword ts
termination_by tokens.length
decreasing_by
  · have := Span.length_rest_lt _closed
    simp only [argumentStart?_eq _argument, List.length_cons]; omega
  · have := Span.length_rest_lt _closed; simp only [List.length_cons]; omega
  · simp

/-- Tokens that are all parameters with a keyword, and the keywords. -/
inductive Parameters : List Token → List Text → Prop
  | nil : Parameters [] []
  | space {t ts ks} : t.isSpace = true → Parameters ts ks → Parameters (t :: ts) ks
  | argument {t p inner q rest ks} : t.kind = .keyword → p.kind = .parenOpen → Balanced inner →
      q.kind = .parenClose →
      Parameters rest ks → Parameters (t :: p :: (inner ++ q :: rest)) (t.text.upper :: ks)

theorem Value.BindingsOf.parameters {seen : Bool} {n : Nat} {ts : List Token} {bs : List (Binding Value)}
    (h : BindingsOf seen n ts bs) (hp : ∀ b ∈ bs, b.isPositional = false) : Parameters ts (bs.map (·.name)) := by
  induction h with
  | nil => exact .nil
  | space hs _ ih => exact .space hs (ih hp)
  | groups ht ho hb hq _ _ _ ih =>
    exact .argument ht ho hb hq (ih fun b hb => hp b (List.mem_cons_of_mem _ hb))
  | call ht ho hb hq _ _ _ _ ih =>
    exact .argument ht ho hb hq (ih fun b hb => hp b (List.mem_cons_of_mem _ hb))
  | positional =>
    have := hp _ (List.mem_cons_self ..)
    rw [Binding.isPositional, isPlaceholder_placeholder] at this
    cases this

section
variable {k : Text} {t p q : Token} {ts inner rest : List Token} {ks : List Text}

theorem firstArgument?_space (hs : t.isSpace = true) (ts : List Token) :
    firstArgument? k (t :: ts) = firstArgument? k ts := by
  have hk := isSpace_iff.mp hs
  have hnone : argumentStart? t ts = none := by
    cases ts with
    | nil => rfl
    | cons u us => exact if_neg fun h => by rw [hk] at h; cases h.1
  rw [firstArgument?]
  split
  · next h => rw [hnone] at h; cases h
  · rw [if_neg (by simp [hk])]

theorem firstArgument?_argument (ht : t.kind = .keyword) (hp : p.kind = .parenOpen) (hb : Balanced inner)
    (hq : q.kind = .parenClose) : firstArgument? k (t :: p :: (inner ++ q :: rest)) =
      if t.text.upper = k then some (p, ⟨inner, q, rest⟩) else firstArgument? k rest := by
  have hspan := Span.of?_append hb hq rest
  have harg := Value.argumentStart?_cons ht hp (inner ++ q :: rest)
  rw [firstArgument?]
  split
  · next h =>
    rw [harg] at h
    cases h
    split
    · next h => rw [hspan] at h; cases h
    · next h => rw [hspan] at h; cases h; rfl
  · next h => rw [harg] at h; cases h

theorem Parameters.exists_firstArgument (h : Parameters ts ks) (hk : k ∈ ks) :
    ∃ p s, firstArgument? k ts = some (p, s) := by
  induction h with
  | nil => cases hk
  | space hs _ ih =>
    obtain ⟨p, s, hfirst⟩ := ih hk
    exact ⟨p, s, (firstArgument?_space hs _).trans hfirst⟩
  | @argument t p inner q rest ks ht hp hb hq _ ih =>
    rw [firstArgument?_argument ht hp hb hq]
    by_cases he : t.text.upper = k
    · exact ⟨p, _, if_pos he⟩
    · rw [if_neg he]
      exact ih ((List.mem_cons.mp hk).resolve_left fun h => he h.symm)

theorem Parameters.firstArgument_mem (h : Parameters ts ks) {s : Span} (hf : firstArgument? k ts = some (p, s)) :
    p ∈ ts := by
  induction h with
  | nil => rw [firstArgument?] at hf; cases hf
  | space hs _ ih =>
    rw [firstArgument?_space hs] at hf
    exact List.mem_cons_of_mem _ (ih hf)
  | @argument t o inner q rest ks ht ho hb hq _ ih =>
    rw [firstArgument?_argument ht ho hb hq] at hf
    split at hf
    · cases hf
      simp
    · have := ih hf
      simp [this]

end

/-! ## The search -/

section
variable {k a t w r : Text} {pos : Nat} {p : Token}

theorem searchArgument_step {n : Nesting}
    (h : searchArgument (a ++ (w ++ r)) k (marksBefore r.head? n a.length w) = none) :
    searchArgument (a ++ (w ++ r)) k (marksFrom n a.length (w ++ r)) =
      searchArgument (a ++ w ++ r) k (marksFrom (n.after r.head? w) (a ++ w).length r) := by
  rw [marksFrom_append, searchArgument_append, h, Option.none_or, List.append_assoc, List.length_append]

theorem searchArgument_step_inert (hw : ∀ c ∈ w, isInert c = true)
    (h : searchArgument (a ++ (w ++ r)) k (marksBefore r.head? .start a.length w) = none) :
    searchArgument (a ++ (w ++ r)) k (marksFrom .start a.length (w ++ r)) =
      searchArgument (a ++ w ++ r) k (marksFrom .start (a ++ w).length r) := by
  have hafter : Nesting.start.after r.head? w = .start := (plain_of_inert hw _ 0 0).2
  have hstep := searchArgument_step h
  rwa [hafter] at hstep

theorem searchArgument_cons {text : Text} {m : Mark} {x : Option Text} (hl : m.role.inLiteral = false)
    (hd : m.depth = 0) (h : argumentAt? text k m.index = some x) (ms : List Mark) :
    searchArgument text k (m :: ms) = some x := by
  rw [searchArgument, List.filter_cons_of_pos (by simp [hl, hd]), List.findSome?_cons, h]

theorem searchArgument_skip {x : Text} (hk : IsKeyword k) (hw : Word.isName w = true) (hne : w.upper ≠ k)
    (ha : Text.Steady (a ++ w ++ ['('] ++ x ++ [')'])) (hx : InPair (a ++ w ++ ['(']).length x) :
    searchArgument (a ++ (w ++ '(' :: (x ++ ')' :: r))) k
      (marksFrom .start a.length (w ++ '(' :: (x ++ ')' :: r))) =
      searchArgument (a ++ w ++ ['('] ++ x ++ [')'] ++ r) k
        (marksFrom .start (a ++ w ++ ['('] ++ x ++ [')']).length r) := by
  have hword := searchArgument_step_inert (r := '(' :: (x ++ ')' :: r)) (isInert_of_isName hw)
    (searchArgument_keyword hk ha.left.left.left (Word.all_of_isName hw) rfl hne)
  have hopen := searchArgument_step (n := .start) (w := ['(']) (r := x ++ ')' :: r)
    (searchArgument_delimiters hk ha.left.left (by simp [isDelimiter]))
  have hinside := searchArgument_step (a := a ++ w ++ ['(']) (n := ⟨.outside, 1⟩) (r := ')' :: r)
    (searchArgument_of_depth (k := k) hx.depth _)
  have hclose := searchArgument_step (n := ⟨.outside, 1⟩) (w := [')']) (r := r)
    (searchArgument_delimiters hk ha (by simp [isDelimiter]))
  rw [List.head?_cons, hx.after] at hinside
  exact hword.trans (hopen.trans (hinside.trans hclose))

theorem searchArgument_found {x : Text} (hw : Word.isName w = true) (ha : Text.Steady (a ++ w)) (hs : BeforeName a)
    (hx : InPair ((a ++ w).length + 1) x) : searchArgument (a ++ (w ++ '(' :: (x ++ ')' :: r))) w.upper
        (marksFrom .start a.length (w ++ '(' :: (x ++ ')' :: r))) =
      some (some (((a ++ (w ++ '(' :: (x ++ ')' :: r))).take ((a ++ w).length + 1 + x.length)).drop
        ((a ++ w).length + 1))) := by
  have hclose := hx.closingParen? r
  have harg := argumentAt?_found (r := x ++ ')' :: r) ha.left hs ha.right
  rw [List.append_assoc] at hclose
  rw [hclose] at harg
  cases w with
  | nil => cases hw
  | cons c v =>
    have hplain := Nesting.step_inert (isInert_of_isName hw c (List.mem_cons_self ..)) 0
    rw [List.cons_append, marksFrom_cons, Nesting.start, Nesting.depthAt, hplain]
    exact searchArgument_cons rfl rfl harg _

/-- Among parameters the search in the text finds what the search among the tokens finds. -/
theorem Parameters.search {ts : List Token} {ks : List Text} (h : Parameters ts ks) (hk : IsKeyword k) {s : Span}
    (ht : readFrom false a.length t = ts) (hs : BeforeName a ∨ ∀ u ∈ ts.head?, u.isSpace = true)
    (hf : firstArgument? k ts = some (p, s)) (hp : Text.Steady ((a ++ t).take p.position.toNat)) :
    searchArgument (a ++ t) k (marksFrom .start a.length t) =
      some (some (((a ++ t).take s.stop.toNat).drop (p.position.toNat + 1))) := by
  induction h generalizing a t with
  | nil => rw [firstArgument?] at hf; cases hf
  | @space u ts ks hu hts ih =>
    obtain ⟨w, r, rfl, hne, hw, hlater⟩ := exists_space_text ht hu
    have hdelim : ∀ c ∈ w, isDelimiter c = true := fun c hc => by simp [isDelimiter, hw c hc]
    rw [firstArgument?_space hu] at hf
    have hle := le_position_of_mem (hlater ▸ hts.firstArgument_mem hf)
    have hsteady : Text.Steady (a ++ w) := hp.of_take ⟨r, List.append_assoc ..⟩ (by rw [List.length_append]; omega)
    have hskip := searchArgument_step_inert (r := r) (fun c hc => isInert_of_isBlank (hw c hc))
      (searchArgument_delimiters hk hsteady hdelim)
    rw [hskip, ← List.append_assoc]
    exact ih (by rw [List.length_append]; exact hlater.symm) (.inl (beforeName_append hne hdelim)) hf
      (by rwa [List.append_assoc])
  | @argument u o inner q rest ks hu ho hb hq hts ih =>
    obtain ⟨x, r, rfl, hname, hopen, hclose, hlater, hx⟩ := exists_argument_text ht hu ho hb hq
    rw [← List.length_append] at hopen hx
    rw [firstArgument?_argument hu ho hb hq] at hf
    split at hf
    · next he =>
      cases hf
      subst he
      have hstop : (Span.stop ⟨inner, q, rest⟩).toNat = (a ++ u.text).length + 1 + x.length := by
        rw [Span.stop, hclose, Int.toNat_natCast, List.length_append]
      have hword : BeforeName a := hs.resolve_right fun hspace => by
        have := isSpace_iff.mp (hspace u rfl)
        rw [hu] at this
        cases this
      rw [hopen, Int.toNat_natCast] at hp ⊢
      rw [hstop]
      exact searchArgument_found hname (hp.of_take ⟨_, List.append_assoc ..⟩ (Nat.le_refl _)) hword hx
    · next hne =>
      have htext : a ++ (u.text ++ '(' :: (x ++ ')' :: r)) = a ++ u.text ++ ['('] ++ x ++ [')'] ++ r := by simp
      have hlen : (a ++ u.text ++ ['('] ++ x ++ [')']).length = a.length + u.text.length + 1 + x.length + 1 := by
        simp; omega
      rw [← hlen] at hlater
      have hle := le_position_of_mem (hlater ▸ hts.firstArgument_mem hf)
      have hsteady := hp.of_take ⟨r, htext.symm⟩ (by omega)
      rw [searchArgument_skip hk hname hne hsteady (by rwa [List.length_append, List.length_singleton])]
      rw [htext] at hp ⊢
      exact ih hlater.symm (.inl (beforeName_append (List.cons_ne_nil _ _) (by simp [isDelimiter]))) hf hp

theorem Parameters.head_ne_open {ts : List Token} {ks : List Text} (h : Parameters ts ks)
    (ht : readFrom false pos t = ts) : (t.dropWhile isBlank).head? ≠ some '(' := by
  induction h generalizing pos t with
  | nil =>
    rw [readFrom_eq_nil_iff.mp ht]
    simp
  | space hs _ ih =>
    obtain ⟨w, r, rfl, -, hw, hlater⟩ := exists_space_text ht hs
    rw [List.dropWhile_append_of_pos hw]
    exact ih hlater.symm
  | @argument u _ _ _ _ _ hu =>
    obtain ⟨r, rfl, hname, -⟩ := exists_keyword_text ht hu
    obtain ⟨c, w, hw⟩ := List.exists_cons_of_ne_nil (Word.ne_nil_of_isCommand (Word.isCommand_of_isName hname))
    have hc := List.all_eq_true.mp (Word.all_of_isName hname) c (by rw [hw]; simp)
    obtain ⟨hb, ho, -⟩ := isOrdinary_iff.mp (isOrdinary_of_continuesName hc)
    rw [hw, List.cons_append, List.dropWhile_cons_of_neg (by simp [hb]), List.head?_cons, ne_eq, Option.some_inj]
    exact ho

theorem exists_command_text {text : Text} {name : Token} {tokens : List Token} (h : ofText text = name :: tokens)
    (hk : name.kind = .command) : ∃ b r, text = b ++ (name.text ++ r) ∧ (∀ c ∈ b, isBlank c = true) ∧
      tokens = readFrom false (b ++ name.text).length r := by
  obtain ⟨c, v, r, htext, -, hname, -, htokens⟩ := exists_first h
  rw [if_neg (by simp [hk])] at hname
  refine ⟨text.takeWhile isBlank, r, ?_, fun c hc => List.mem_takeWhile_imp hc, ?_⟩
  · rw [hname, ← htext, List.takeWhile_append_dropWhile]
  · rw [htokens, hname, List.length_append]

end

/-! ## Commands -/

section
variable {ts : List Token} {ks : List Text} {k r rest : Text} {pos : Nat}

theorem Parameters.isKeyword (h : Parameters ts ks) (hr : Reads ts rest) (hk : k ∈ ks) : IsKeyword k := by
  induction h with
  | nil => cases hk
  | space _ _ ih => exact ih hr.2 hk
  | argument ht _ _ _ _ ih =>
    rcases List.mem_cons.mp hk with rfl | hk
    · exact ⟨Word.isName_upper (hr.1.isName ht), (Value.upper_keyword hr.1 ht).2⟩
    · exact ih (reads_append.mp hr.2.2).2.2 hk

theorem Parameters.head_isSpace (h : Parameters ts ks) (hr : Reads ts rest)
    (hd : startsDelimited (joinTokens ts) = true) : ∀ u ∈ ts.head?, u.isSpace = true := by
  cases h with
  | nil => simp
  | space hs => simpa using hs
  | @argument t _ _ _ _ _ ht =>
    have hname := hr.1.isName ht
    obtain ⟨c, w, hw⟩ := List.exists_cons_of_ne_nil (Word.ne_nil_of_isCommand (Word.isCommand_of_isName hname))
    have hc := List.all_eq_true.mp (Word.all_of_isName hname) c (by rw [hw]; simp)
    rw [joinTokens_cons, hw] at hd
    rw [continuesName_of_isDelimiter hd] at hc
    cases hc

theorem startsDelimited_of_head_isSpace (h : ∀ u ∈ (readFrom false pos r).head?, u.isSpace = true) :
    startsDelimited r = true := by
  cases ht : readFrom false pos r with
  | nil =>
    rw [readFrom_eq_nil_iff.mp ht]
    rfl
  | cons u us =>
    obtain ⟨w, r, rfl, hne, hw, -⟩ := exists_space_text ht (h u (by rw [ht]; rfl))
    obtain ⟨c, w, rfl⟩ := List.exists_cons_of_ne_nil hne
    have hc := hw c (List.mem_cons_self ..)
    simp [startsDelimited, isDelimiter, hc]

end

theorem searchArgument_marks {k b w r : Text} (hk : IsKeyword k) (h : Text.Steady (b ++ w))
    (hb : ∀ c ∈ b, isBlank c = true) (hw : ∀ c ∈ w, isOrdinary c = true) (hr : startsDelimited r = true)
    (hnext : (r.dropWhile isBlank).head? ≠ some '(') : searchArgument (b ++ (w ++ r)) k (marks (b ++ (w ++ r))) =
      searchArgument (b ++ w ++ r) k (marksFrom .start (b ++ w).length r) := by
  have hblanks := searchArgument_step_inert (a := []) (r := w ++ r) (fun c hc => isInert_of_isBlank (hb c hc))
    (searchArgument_delimiters hk h.left fun c hc => by simp [isDelimiter, hb c hc])
  have hname := searchArgument_step_inert (fun c hc => isInert_of_isOrdinary (hw c hc))
    (searchArgument_command hk h hw hr hnext)
  exact hblanks.trans hname

/-- A keyword of a command without positional values has its first argument among the tokens, and the same argument
in the text, if the text in front of it is as long as its upper case. -/
theorem keywordArgument_eq {source source' : Option Text} {text keyword : Text} {name : Token} {tokens : List Token}
    {c : Command} (hcheck : Token.check source (ofText text) = .ok (name, tokens))
    (hread : Command.ofTokens source' name tokens = .ok c) (hpos : c.positionals = [])
    (hkey : keyword ∈ c.keywords) :
    ∃ p s, firstArgument? keyword tokens = some (p, s) ∧
      ((Text.upper (text.take p.position.toNat)).length = (text.take p.position.toNat).length →
        keywordArgument text keyword = some ((text.take s.close.position.toNat).drop (p.position.toNat + 1))) := by
  have hm := readFrom_of_ofTokens hcheck hread
  have hnamed : ∀ b ∈ c.bindings, b.isPositional = false := fun b hb => by
    simpa using List.filter_eq_nil_iff.mp hpos b hb
  have hparams := hm.bindings.parameters hnamed
  obtain ⟨b, hb, rfl⟩ := List.mem_map.mp hkey
  have hmem : b.name ∈ c.bindings.map (·.name) := List.mem_map_of_mem (List.mem_filter.mp hb).1
  have hk := hparams.isKeyword hm.reads hmem
  obtain ⟨p, s, hf⟩ := hparams.exists_firstArgument hmem
  refine ⟨p, s, hf, fun hsteady => ?_⟩
  obtain ⟨b, r, rfl, hblank, htokens⟩ := exists_command_text hm.tokens hm.command
  have hspace := hparams.head_isSpace hm.reads hm.delimited
  have hle := le_position_of_mem (htokens ▸ hparams.firstArgument_mem hf)
  have hfront : Text.Steady (b ++ name.text) :=
    Text.Steady.of_take hsteady ⟨r, List.append_assoc ..⟩ (by omega)
  have hfound := hparams.search hk htokens.symm (.inr hspace) hf (by rw [List.append_assoc]; exact hsteady)
  have hmarks := searchArgument_marks hk hfront hblank
    (List.all_eq_true.mp (Word.isOrdinary_of_isCommand hm.isCommand))
    (startsDelimited_of_head_isSpace (by rw [← htokens]; exact hspace)) (hparams.head_ne_open htokens.symm)
  rw [keywordArgument_eq_search, hk.upper_eq, hmarks, hfound, List.append_assoc]
  rfl

/-- Neither a keyword that ends like the one that is sought nor a parenthesis in a literal misleads the search, and
what is behind the argument does not matter. -/
theorem keywordArgument_eq_literal :
    keywordArgument "CMD BA(')') a((1)) A('ß')".toList "A".toList = some "(1)".toList := by
  have hcheck : Token.check none (ofText "CMD BA(')') a((1)) A('ß')".toList) =
      .ok (⟨.command, "CMD".toList, 0⟩, (ofText "CMD BA(')') a((1)) A('ß')".toList).drop 1) := by
    with_unfolding_all rfl
  have hread : Command.ofTokens none ⟨.command, "CMD".toList, 0⟩
      ((ofText "CMD BA(')') a((1)) A('ß')".toList).drop 1) =
      .ok ⟨"CMD".toList, [⟨"BA".toList, .scalar "')'".toList⟩, ⟨"A".toList, .expression [⟨.value, ['1'], 15⟩] true⟩,
        ⟨"A".toList, .scalar "'ß'".toList⟩], none, none⟩ := by
    with_unfolding_all rfl
  have hfirst : (firstArgument? "A".toList ((ofText "CMD BA(')') a((1)) A('ß')".toList).drop 1)).map
      (fun r => (r.1.position, r.2.close.position)) = some (13, 17) := by
    with_unfolding_all rfl
  obtain ⟨p, s, hf, harg⟩ := @keywordArgument_eq none none _ "A".toList _ _ _ hcheck hread rfl (by decide)
  rw [hf] at hfirst
  obtain ⟨hp, hs⟩ := Prod.mk.inj (Option.some.inj hfirst)
  rw [hp, hs] at harg
  exact harg (by decide)

/-- An `ß` in front of an argument moves it in the upper case, and the argument is not found. -/
theorem keywordArgument_eq_expanding : ∃ name tokens c,
    Token.check none (ofText "CMD A('ß') K(1)".toList) = .ok (name, tokens) ∧
    Command.ofTokens none name tokens = .ok c ∧ c.positionals = [] ∧ "K".toList ∈ c.keywords ∧
      keywordArgument "CMD A('ß') K(1)".toList "K".toList = none := by
  refine ⟨⟨.command, "CMD".toList, 0⟩, (ofText "CMD A('ß') K(1)".toList).drop 1,
    ⟨"CMD".toList, [⟨"A".toList, .scalar "'ß'".toList⟩, ⟨"K".toList, .scalar "1".toList⟩], none, none⟩,
    ?_, ?_, rfl, ?_, ?_⟩
  · with_unfolding_all rfl
  · with_unfolding_all rfl
  · decide
  · decide

end ControlLanguage
