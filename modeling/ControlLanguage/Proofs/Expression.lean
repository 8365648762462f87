import ControlLanguage.Literal
import ControlLanguage.Proofs.Form.Names
import ControlLanguage.Proofs.Spelling.Groups

/-!
# Expressions among words

Names and special values side by side are an expression if they start with a
name and one of them is spelled as an operator: `isExpression_unwords`. A
star in front of a name is an operator by itself where no plain letter
follows, and then it makes no expression.
-/

namespace ControlLanguage

def isOperatorWord (w : Text) : Bool := Token.wordOperators.contains w.upper

/-! ## Letters of operators -/

section
variable {c u : Char} {cs name : Text}

theorem isAlpha_of_isOperatorWord (hc : startsName c = true) (h : isOperatorWord ('*' :: c :: cs) = true) :
    c.isAlpha = true := by
  obtain ⟨u, hu, -⟩ := startsName_iff.mp hc
  have hmem : '*' :: u :: Text.upper cs ∈ Token.wordOperators := by
    rw [isOperatorWord, List.contains_iff_mem, Text.upper_cons, Text.upper_cons, hu] at h
    exact h
  have hall : ∀ w ∈ Token.wordOperators, ∀ u ∈ w.tail.head?,
      (65 ≤ u.toNat ∧ u.toNat ≤ 90) ∧ u.toNat ≠ 73 ∧ u.toNat ≠ 83 := by simp [Token.wordOperators]
  obtain ⟨hletter, hi, hs⟩ := hall _ hmem u rfl
  exact isAlpha_of_upperChar hu hletter hi hs

theorem not_isOperatorWord_of_isName (h : Word.isName name = true) : isOperatorWord name = false := by
  rw [← Bool.not_eq_true, isOperatorWord, List.contains_iff_mem]
  intro hmem
  have hstar : ∀ w ∈ Token.wordOperators, '*' ∈ w := by decide
  exact absurd (Word.isUpperName_of_mem_upper h (hstar _ hmem)) (by decide)

end

open Token Value

namespace Token

section
variable {t : Token} {ts us : List Token} {prev : Option Token} {w name rest : Text} {c : Char} {cs : Text}

/-! ## Operations among tokens -/

def isWordOperator (t : Token) : Bool := t.kind == .operator && (2 ≤ t.text.length && t.text.head? == some '*')

/-- Neither a function nor a variable, of which only those beside other tokens make an expression. -/
def isLone (t : Token) : Bool := t.kind != .function && t.kind != .variableRef

theorem hasOperation_eq_any (h : ∀ t ∈ ts, t.isLone = true) : hasOperation prev ts = ts.any isWordOperator := by
  induction ts generalizing prev with
  | nil => rfl
  | cons t ts ih =>
    obtain ⟨ht, hts⟩ := List.forall_mem_cons.mp h
    rw [List.any_cons, ← ih hts, hasOperation]
    congr 1
    rw [isLone, Bool.and_eq_true, bne_iff_ne, bne_iff_ne] at ht
    unfold isWordOperator
    split
    · next hk => rw [hk]; rfl
    · next hk => exact absurd hk ht.1
    · next hk => exact absurd hk ht.2
    · next hk _ _ => rw [beq_eq_false_iff_ne.mpr hk]; rfl

theorem any_filter_isSpace (ts : List Token) :
    (ts.filter (!·.isSpace)).any isWordOperator = ts.any isWordOperator := by
  rw [List.any_filter]
  congr 1
  funext t
  unfold isWordOperator isSpace
  cases t.kind <;> rfl

theorem any_of_bare (h : ts.map bare = us.map bare) : ts.any isWordOperator = us.any isWordOperator := by
  have hany : ∀ ts : List Token, ts.any isWordOperator =
      (ts.map bare).any fun p => p.1 == .operator && (2 ≤ p.2.length && p.2.head? == some '*') := by
    intro ts
    rw [List.any_map]
    rfl
  rw [hany, h, hany]

/-! ## The tokens of a word -/

theorem kindAt_star (hc : c.isAlpha = false) (cs : Text) : kindAt false '*' (c :: cs) = (.operator, 0) := by
  have hpair : next (fun d => pairOperators.contains ('*', d)) (c :: cs) = false := by simp [next, pairOperators]
  rw [kindAt_false, if_neg (by decide), if_neg (by decide), if_neg (by decide), if_neg (by decide),
    if_neg (fun h => absurd h.1 (by decide)), if_neg (by simp [next, hc]), if_neg (fun h => absurd h.1 (by decide)),
    if_neg (by rw [hpair]; decide), if_pos (by decide)]

theorem kindAt_starName (hc : c.isAlpha = true) (hcs : (c :: cs).all continuesName = true)
    (hr : startsDelimited rest = true) : kindAt false '*' (c :: cs ++ rest) =
      (if isOperatorWord ('*' :: c :: cs) then .operator else .symbolic, (c :: cs).length) := by
  have hend : rest.head?.any continuesName = false ∧ rest.head? ≠ some '/' := by
    cases rest with
    | nil => exact ⟨rfl, by simp⟩
    | cons d ds =>
      have hd : isDelimiter d = true := hr
      refine ⟨continuesName_of_isDelimiter hd, ?_⟩
      rintro ⟨⟩
      exact absurd hd (by decide)
  have htake : (c :: cs ++ rest).takeWhile continuesName = c :: cs :=
    takeWhile_append_eq (takeWhile_append_length_iff.mpr ⟨hcs, hend.1⟩)
  rw [kindAt_false, if_neg (by decide), if_neg (by decide), if_neg (by decide), if_neg (by decide),
    if_neg (fun h => absurd h.1 (by decide)), if_pos ⟨rfl, hc⟩]
  simp only [starKind, htake, List.drop_left, if_neg hend.2]
  by_cases ho : isOperatorWord ('*' :: c :: cs) = true
  · rw [if_pos ho]; exact if_pos ho
  · rw [if_neg ho]; exact if_neg ho

structure WordTokens (w : Text) (ts : List Token) : Prop where
  joined : joinTokens ts = w
  reads : ∀ rest, startsDelimited rest = true → Reads ts rest
  isLone : ∀ t ∈ ts, t.isLone = true
  any : ts.any isWordOperator = isOperatorWord w

theorem wordTokens_name (h : Word.isName name = true) : WordTokens name [⟨.keyword, name, 0⟩] where
  joined := List.append_nil name
  reads _ hr := ⟨stands_keyword 0 h hr, trivial⟩
  isLone := by simp [Token.isLone]
  any := by rw [not_isOperatorWord_of_isName h]; rfl

theorem exists_wordTokens_star (h : Word.isName name = true) : ∃ ts, WordTokens ('*' :: name) ts := by
  have hall := Word.all_of_isName h
  cases name with
  | nil => cases h
  | cons c cs =>
    by_cases hc : c.isAlpha = true
    · refine ⟨[⟨if isOperatorWord ('*' :: c :: cs) then .operator else .symbolic, '*' :: c :: cs, 0⟩], ?_, ?_, ?_,
        ?_⟩
      · exact List.append_nil _
      · intro rest hr
        exact ⟨⟨'*', c :: cs, rfl, kindAt_starName hc hall hr, fun hk => by split at hk <;> cases hk⟩, trivial⟩
      · simp only [List.forall_mem_singleton, isLone]
        split <;> rfl
      · by_cases ho : isOperatorWord ('*' :: c :: cs) = true
        · simp [isWordOperator, ho]
        · simp [isWordOperator, ho]
    · have hstart : startsName c = true := by
        rw [Word.isName, Bool.and_eq_true] at h
        exact h.1
      have hc : c.isAlpha = false := by simpa using hc
      refine ⟨⟨.operator, ['*'], 0⟩ :: [⟨.keyword, c :: cs, 0⟩], ?_, ?_, ?_, ?_⟩
      · simp [joinTokens]
      · intro rest hr
        exact ⟨⟨'*', [], rfl, kindAt_star hc _, by simp⟩, (wordTokens_name h).reads rest hr⟩
      · simp [isLone]
      · have hno : isOperatorWord ('*' :: c :: cs) = false := by
          rw [← Bool.not_eq_true]
          intro ho
          rw [isAlpha_of_isOperatorWord hstart ho] at hc; cases hc
        rw [hno]; rfl

theorem exists_wordTokens (h : isPlain w = true) : ∃ ts, WordTokens w ts := by
  rcases isPlain_cases h with h | ⟨name, rfl, hname⟩
  · rw [Word.isSimpleName, Bool.and_eq_true] at h
    exact ⟨_, wordTokens_name h.2⟩
  · exact exists_wordTokens_star hname

/-! ## Words side by side -/

theorem exists_tokens_of_words {ws : List Text} (h : ∀ w ∈ ws, isPlain w = true) : ∃ ts,
    joinTokens ts = ws.flatMap (' ' :: ·) ∧ Reads ts [] ∧ (∀ t ∈ ts, t.isLone = true) ∧
      ts.any isWordOperator = ws.any isOperatorWord := by
  induction ws with
  | nil => exact ⟨[], rfl, trivial, by simp, rfl⟩
  | cons w ws ih =>
    obtain ⟨hw, hws⟩ := List.forall_mem_cons.mp h
    obtain ⟨us, hjoin, hreads, hlone, hany⟩ := ih hws
    obtain ⟨ts, hts⟩ := exists_wordTokens hw
    have hdelimited : startsDelimited (joinTokens us) = true := by
      rw [hjoin]
      cases ws <;> rfl
    have hopen : next isBlank (joinTokens (ts ++ us) ++ []) = false := by
      obtain ⟨c, cs, rfl, hc⟩ := (isWord_of_isPlain hw).opens
      rw [joinTokens_append, hts.joined]
      show isBlank c = false
      rw [← Bool.not_eq_true]
      intro hb
      rw [isSpace_of_isBlank hb] at hc
      cases hc.1
    refine ⟨Token.blank :: (ts ++ us), ?_, ⟨stands_blank hopen, reads_append.mpr ⟨?_, hreads⟩⟩, ?_, ?_⟩
    · rw [joinTokens_cons, joinTokens_append, hts.joined, hjoin, List.flatMap_cons]; rfl
    · rw [List.append_nil]
      exact hts.reads _ hdelimited
    · exact List.forall_mem_cons.mpr ⟨rfl, List.forall_mem_append.mpr ⟨hts.isLone, hlone⟩⟩
    · rw [List.any_cons, List.any_append, hts.any, hany, List.any_cons]; rfl

theorem isLone_of_bare (h : ts.map bare = us.map bare) (hus : ∀ u ∈ us, u.isLone = true) :
    ∀ t ∈ ts, t.isLone = true := by
  intro t ht
  obtain ⟨u, hu, he⟩ := List.mem_map.mp (h ▸ List.mem_map_of_mem (f := bare) ht)
  have hlone := hus u hu
  rw [isLone, show u.kind = t.kind from congrArg Prod.fst he] at hlone
  exact hlone

theorem ofText_unwords {ws : List Text} (hw : Word.isName w = true) (h : ∀ v ∈ ws, isPlain v = true) :
    (∀ t ∈ ofText (Text.unwords (w :: ws)), t.isLone = true) ∧
      (ofText (Text.unwords (w :: ws))).any isWordOperator = ws.any isOperatorWord := by
  obtain ⟨ts, hjoin, hreads, hlone, hany⟩ := exists_tokens_of_words h
  have hdelimited : startsDelimited (ws.flatMap (' ' :: ·)) = true := by
    cases ws <;> rfl
  have hbare := bare_readFrom hreads w.length
  rw [unwords_cons, ofText_command (Word.isCommand_of_isName hw) hdelimited, ← hjoin, List.any_cons,
    any_of_bare hbare,
    hany]
  exact ⟨List.forall_mem_cons.mpr ⟨rfl, isLone_of_bare hbare hlone⟩, rfl⟩

end

end Token

/-- A name with other names and special values behind it is an expression if one of them is an operator. -/
theorem isExpression_unwords {w : Text} {ws : List Text} (hw : Word.isName w = true)
    (h : ∀ v ∈ w :: ws, isPlain v = true) :
    isExpression (Text.unwords (w :: ws)) = (w :: ws).any isOperatorWord := by
  obtain ⟨hplain, hws⟩ := List.forall_mem_cons.mp h
  have htrim : Text.trim (Text.unwords (w :: ws)) = _ := trim_unwords fun v hv => .word (isWord_of_isPlain (h v hv))
  have hparen : (Text.unwords (w :: ws)).head? ≠ some '(' := by
    rw [head?_unwords (ne_nil_of_isPlain hplain)]
    exact (isWord_of_isPlain hplain).head?_ne_open
  obtain ⟨hlone, hany⟩ := ofText_unwords hw hws
  unfold isExpression
  simp only [htrim]
  rw [beq_eq_false_iff_ne.mpr hparen, Bool.false_and, Bool.false_or,
    hasOperation_eq_any fun t ht => hlone t (List.mem_of_mem_filter ht), any_filter_isSpace, hany, List.any_cons,
    not_isOperatorWord_of_isName hw, Bool.false_or]

end ControlLanguage
