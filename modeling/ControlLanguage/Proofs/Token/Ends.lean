import ControlLanguage.Proofs.Token.Scan

/-!
# The first and the last character of a token

A token that is no space starts with no blank. It ends with none either,
unless it is a literal or a word that runs to the end of the text.
-/

namespace ControlLanguage

def Opens (t : Text) : Prop := ∃ c cs, t = c :: cs ∧ isBlank c = false

def Closes (t : Text) : Prop := ∃ cs c, t = cs ++ [c] ∧ isSpace c = false

structure Tight (t : Text) : Prop where
  opens : Opens t
  closes : Closes t

section
variable {s t : Text}

theorem Opens.append (h : Opens s) (t : Text) : Opens (s ++ t) := by
  obtain ⟨c, cs, rfl, hc⟩ := h
  exact ⟨c, cs ++ t, rfl, hc⟩

theorem Closes.append (h : Closes t) (s : Text) : Closes (s ++ t) := by
  obtain ⟨cs, c, rfl, hc⟩ := h
  exact ⟨s ++ cs, c, (List.append_assoc ..).symm, hc⟩

theorem Opens.ne_nil (h : Opens t) : t ≠ [] := by
  obtain ⟨c, cs, rfl, _⟩ := h
  exact List.cons_ne_nil c cs

theorem trimRight_of_closes (h : Closes t) : Text.trimRight t = t := by
  obtain ⟨cs, c, rfl, hc⟩ := h
  induction cs with
  | nil => simp [Text.trimRight, hc]
  | cons d cs ih =>
    rw [List.cons_append, Text.trimRight, ih]
    cases hcs : cs ++ [c] with
    | nil => simp at hcs
    | cons => rfl

theorem trimRight_append_spaces (hs : ∀ c ∈ s, isSpace c = true) (t : Text) :
    Text.trimRight (t ++ s) = Text.trimRight t := by
  induction t with
  | nil => exact Text.trimRight_eq_nil_iff.mpr hs
  | cons d t ih => rw [List.cons_append, Text.trimRight, Text.trimRight, ih]

theorem closes_trimRight (t : Text) : Text.trimRight t = [] ∨ Closes (Text.trimRight t) := by
  induction t with
  | nil => exact .inl rfl
  | cons c cs ih =>
    rw [Text.trimRight]
    split
    · by_cases hc : isSpace c = true
      · rw [if_pos hc]; exact .inl rfl
      · rw [if_neg hc]; exact .inr ⟨[], c, rfl, by simpa using hc⟩
    · next d ds hd =>
      rw [hd] at ih
      rcases ih with ih | ih
      · cases ih
      · exact .inr (ih.append [c])

end

/-! ## Names -/

theorem not_isSpace_of_isUpperName {u : Char} (h : isUpperName u = true) : isSpace u = false := by
  refine ascii_forall (P := fun u => isUpperName u = true → isSpace u = false) ?_
    (toNat_lt_of_isUpperName h) h
  decide

theorem not_isSpace_of_mem_upper {t : Text} (h : Word.isCommand t = true) {u : Char} (hu : u ∈ t.upper) :
    isSpace u = false := by
  rcases Word.upper_chars_of_isCommand h hu with h | rfl | rfl
  · exact not_isSpace_of_isUpperName h
  · decide
  · decide

theorem Word.not_isSpace_of_isCommand {t : Text} (h : Word.isCommand t = true) : ∀ c ∈ t, isSpace c = false := by
  intro c hc
  rw [← Bool.not_eq_true]
  intro hs
  have hn : isUpperName c = false := by
    rw [← Bool.not_eq_true]
    exact fun hn => absurd hs (by rw [not_isSpace_of_isUpperName hn]; decide)
  apply Word.not_mem_of_isCommand h (upperChar_of_isSpace hs) hn _ hc
  constructor
  · intro he; rw [he] at hs; exact absurd hs (by decide)
  · intro he; rw [he] at hs; exact absurd hs (by decide)

theorem Word.head_of_isCommand {c : Char} {t : Text} (h : Word.isCommand (c :: t) = true) : c ≠ '/' := by
  rcases Word.isCommand_cases h with h | ⟨library, name, ht, hl, -, hlib⟩
  · intro he
    exact Word.slash_not_mem (Word.all_of_isName h) (by simp [he])
  · cases library with
    | nil => exact absurd hlib (by decide)
    | cons d library =>
      obtain ⟨rfl, -⟩ := List.cons.inj ht
      intro he
      exact hl (by simp [he])

theorem tight_of_not_isSpace {t : Text} (hn : t ≠ []) (h : ∀ c ∈ t, isSpace c = false) : Tight t := by
  refine ⟨?_, ?_⟩
  · obtain ⟨c, cs, rfl⟩ := List.exists_cons_of_ne_nil hn
    refine ⟨c, cs, rfl, ?_⟩
    rw [← Bool.not_eq_true]
    intro hb
    have := h c (List.mem_cons_self ..)
    rw [isSpace_of_isBlank hb] at this; cases this
  · obtain ⟨cs, c, rfl⟩ := (List.eq_nil_or_concat t).resolve_left hn
    rw [List.concat_eq_append] at h ⊢
    exact ⟨cs, c, rfl, h c (by simp)⟩

theorem tight_upper {t : Text} (h : Word.isCommand t = true) : Tight t.upper :=
  tight_of_not_isSpace (Word.ne_nil_of_isCommand (Word.isCommand_upper h).1)
    fun _ => not_isSpace_of_mem_upper h

/-! ## Tokens -/

theorem Nesting.step_blank {n : Nesting} {c : Char} (hc : isBlank c = true) (hm : n.mode ≠ .outside)
    (next : Option Char) : (n.step c next).2.mode ≠ .outside := by
  have h1 : c ≠ '\'' := by rintro rfl; exact absurd hc (by decide)
  have h2 : c ≠ '"' := by rintro rfl; exact absurd hc (by decide)
  unfold step
  split
  · simp
  · rw [if_neg h1]; exact hm
  · rw [if_neg h2]; exact hm
  · exact absurd ‹_› hm

namespace Token

section
variable {x : Char} {t w rest : Text} {k : TokenKind}

/-- A blank inside of a literal keeps it open, so no word and no literal in front of some text ends with it. -/
theorem not_isBlank_of_inWord (hw : (marksBefore rest.head? .start 0 (w ++ [x])).all Mark.inWord = true)
    (hmode : (Nesting.start.after rest.head? (w ++ [x])).mode = .outside) : isBlank x = false := by
  rw [marksBefore_snoc, List.all_append, Bool.and_eq_true] at hw
  rw [Nesting.after_snoc] at hmode
  rw [← Bool.not_eq_true]
  intro hb
  have hm : (Nesting.start.after (some x) w).mode ≠ .outside := by
    intro hm
    have hout := (inWord_eq_false_iff _ (0 + w.length) x rest.head?).mpr ⟨hm, by rw [isDelimiter, hb]; rfl⟩
    rw [marksBefore, marksBefore, List.head?_nil, Option.none_or, List.all_cons, hout] at hw
    cases hw.2
  exact Nesting.step_blank hb hm _ hmode

theorem Scanned.last_not_isBlank (h : Scanned rest k t) (hk : k ≠ .space) (hr : rest ≠ []) (hx : t = w ++ [x]) :
    ControlLanguage.isBlank x = false := by
  have hmem : x ∈ t := by rw [hx]; simp
  cases h with
  | space => exact absurd rfl hk
  | parenOpen => rw [List.mem_singleton.mp hmem]; decide
  | parenClose => rw [List.mem_singleton.mp hmem]; decide
  | ordinary _ _ _ hw => exact (isOrdinary_iff.mp (hw x hmem)).1
  | quoting _ hw hend =>
    rw [hx] at hw hend
    exact not_isBlank_of_inWord hw (hend.resolve_left hr)

theorem Stands.last_not_isBlank {t : Token} (h : t.Stands rest) (hs : t.isSpace = false) (hr : rest ≠ [])
    (hx : t.text = w ++ [x]) : ControlLanguage.isBlank x = false := by
  obtain ⟨c, v, ht, hkind, -⟩ := h
  exact (scanned_of_kindAt hkind).last_not_isBlank (by simpa [isSpace] using hs) hr (ht ▸ hx)

end

/-! ## All tokens of a text -/

theorem mem_of_mem_joinTokens {pos : Nat} {t : Text} {c : Char} (h : c ∈ joinTokens (readFrom false pos t)) :
    c = ' ' ∨ c ∈ t := by
  induction hn : t.length using Nat.strongRecOn generalizing pos t with
  | _ n ih =>
    cases t with
    | nil => rw [readFrom_nil] at h; cases h
    | cons d ds =>
      subst hn
      rw [readFrom_cons, joinTokens_cons, List.mem_append] at h
      rcases h with h | h
      · split at h
        · exact .inl (List.mem_singleton.mp h)
        · rcases List.mem_cons.mp h with rfl | h
          · exact .inr (List.mem_cons_self ..)
          · exact .inr (List.mem_cons_of_mem _ (List.mem_of_mem_take h))
      · have hlt : (ds.drop (kindAt false d ds).2).length < (d :: ds).length := by
          simp only [List.length_drop, List.length_cons]; omega
        exact (ih _ hlt h rfl).imp id fun hm => List.mem_cons_of_mem _ (List.mem_of_mem_drop hm)

theorem getLast?_joinTokens (pos : Nat) {t : Text} (h : ∀ c, t.getLast? = some c → isBlank c = false) :
    (joinTokens (readFrom false pos t)).getLast? = t.getLast? := by
  induction hn : t.length using Nat.strongRecOn generalizing pos t with
  | _ n ih =>
    cases t with
    | nil => rw [readFrom_nil]; rfl
    | cons d ds =>
      subst hn
      have hsplit : d :: ds = (d :: ds.take (kindAt false d ds).2) ++ ds.drop (kindAt false d ds).2 := by
        rw [List.cons_append, List.take_append_drop]
      have hlast : (d :: ds).getLast? = (ds.drop (kindAt false d ds).2).getLast?.or
          (d :: ds.take (kindAt false d ds).2).getLast? := by
        rw [← List.getLast?_append, ← hsplit]
      have hlt : (ds.drop (kindAt false d ds).2).length < (d :: ds).length := by
        simp only [List.length_drop, List.length_cons]; omega
      rw [readFrom_cons, joinTokens_cons, List.getLast?_append]
      by_cases hd : ds.drop (kindAt false d ds).2 = []
      · rw [hd, readFrom_nil, hlast, hd]
        have hb : isBlank d ≠ true := by
          intro hb
          rw [kindAt_blank hb, drop_length_takeWhile, List.dropWhile_eq_nil_iff] at hd
          obtain ⟨x, hx⟩ := Option.isSome_iff_exists.mp (List.getLast?_isSome.mpr (List.cons_ne_nil d ds))
          have hbx := h x hx
          rcases List.mem_cons.mp (List.mem_of_getLast? hx) with rfl | hm
          · rw [hb] at hbx; cases hbx
          · rw [hd x hm] at hbx; cases hbx
        rw [if_neg (mt kindAt_space_iff.mp hb)]; rfl
      · obtain ⟨x, hx⟩ := Option.isSome_iff_exists.mp (List.getLast?_isSome.mpr hd)
        rw [ih _ hlt _ (fun c hc => h c (by rw [hlast, hc]; rfl)) rfl, hlast, hx]; rfl

section
variable {t : Token} {ts : List Token} {rest : Text}

theorem Reads.tight (h : Reads ts [])
    (hc : ∀ c ∈ joinTokens ts, ControlLanguage.isSpace c = true → isBlank c = true)
    (hl : ∀ c, (joinTokens ts).getLast? = some c → ControlLanguage.isSpace c = false) (ht : t ∈ ts)
    (hs : t.isSpace = false) : Tight t.text := by
  induction ts with
  | nil => cases ht
  | cons u us ih =>
    rw [joinTokens_cons] at hc hl
    rcases List.mem_cons.mp ht with rfl | ht
    · have hn := h.1.ne_nil
      have hb := h.1.head_not_blank hs
      refine ⟨?_, ?_⟩
      · obtain ⟨c, cs, hcs⟩ := List.exists_cons_of_ne_nil hn
        rw [hcs] at hb
        exact ⟨c, cs, hcs, hb⟩
      · obtain ⟨cs, c, hcs⟩ := (List.eq_nil_or_concat t.text).resolve_left hn
        rw [List.concat_eq_append] at hcs
        refine ⟨cs, c, hcs, ?_⟩
        by_cases hus : joinTokens us = []
        · exact hl c (by rw [hus, List.append_nil, hcs, List.getLast?_concat])
        · have hblank := h.1.last_not_isBlank hs (by simpa using hus) hcs
          rw [← Bool.not_eq_true]
          intro hsp
          rw [hc c (by rw [hcs]; simp) hsp] at hblank; cases hblank
    · refine ih h.2 (fun c hm => hc c (List.mem_append_right _ hm)) (fun c hm => hl c ?_) ht
      rw [List.getLast?_append, hm]; rfl

theorem ofText_tail {text : Text} (h : ofText text = t :: ts) :
    ∃ pos rest, ts = readFrom false pos rest ∧ rest <:+ text := by
  unfold ofText at h
  have hsuffix := List.dropWhile_suffix isBlank (l := text)
  cases hd : text.dropWhile isBlank with
  | nil => rw [hd, readFrom_nil] at h; cases h
  | cons c cs =>
    rw [hd] at hsuffix
    rw [hd, readFrom_cons] at h
    obtain ⟨-, rfl⟩ := List.cons.inj h
    exact ⟨_, _, rfl, (List.drop_suffix _ cs).trans ((List.suffix_cons c cs).trans hsuffix)⟩

theorem tight_of_ofText {text : Text} (hc : ∀ c ∈ text, ControlLanguage.isSpace c = true → isBlank c = true)
    (hl : ∀ c, text.getLast? = some c → ControlLanguage.isSpace c = false) (h : ofText text = t :: ts)
    {u : Token} (hu : u ∈ ts) (hs : u.isSpace = false) : Tight u.text := by
  obtain ⟨pos, rest, rfl, hsuffix⟩ := ofText_tail h
  have hlast : ∀ c, rest.getLast? = some c → ControlLanguage.isSpace c = false := by
    intro c hm
    obtain ⟨front, rfl⟩ := hsuffix
    exact hl c (by rw [List.getLast?_append, hm]; rfl)
  have hblank : ∀ c, rest.getLast? = some c → isBlank c = false := by
    intro c hm
    rw [← Bool.not_eq_true]
    intro hb
    have := hlast c hm
    rw [isSpace_of_isBlank hb] at this; cases this
  refine (reads_readFrom pos rest).tight (fun c hm hsp => ?_) (fun c hm => ?_) hu hs
  · rcases mem_of_mem_joinTokens hm with rfl | hm
    · decide
    · exact hc c (hsuffix.subset hm) hsp
  · rw [getLast?_joinTokens pos hblank] at hm
    exact hlast c hm

end

end Token

end ControlLanguage
