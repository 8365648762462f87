import Mathlib.Data.List.Basic
import ControlLanguage.Proofs.Token.Scan

/-!
# Letters of either case

Two texts that become one when their ASCII letters are put in upper case are
scanned alike and cut into tokens of the same kinds and lengths: no word of
the language tells a letter from its other case.
-/

namespace ControlLanguage

open Token

def Text.folded (t : Text) : Text := t.map Char.toUpper

def Mark.folded (m : Mark) : Mark := { m with char := m.char.toUpper }

/-! ## Characters -/

section
variable {c x : Char}

theorem case_forall {P : Char → Prop} (h : ∀ n < 128, P (Char.ofNat n))
    (hself : ∀ c : Char, c.toUpper = c → c.toLower = c → c.isAlpha = false → P c) (c : Char) : P c := by
  by_cases hc : c.toNat < 128
  · exact ascii_forall h hc
  · refine hself c ?_ ?_ ?_
    · exact dif_neg fun hlower => hc (Nat.lt_of_le_of_lt (UInt32.le_iff_toNat_le.1 hlower.2) (by decide))
    · exact dif_neg fun hupper => hc (Nat.lt_of_le_of_lt (UInt32.le_iff_toNat_le.1 hupper.2) (by decide))
    · rw [← Bool.not_eq_true, isAlpha_iff]
      omega

theorem toUpper_of_not_isAlpha (h : c.isAlpha = false) : c.toUpper = c :=
  case_forall (P := fun c => c.isAlpha = false → c.toUpper = c) (by decide) (fun _ hself _ _ _ => hself) c h

theorem isAlpha_toUpper (c : Char) : c.toUpper.isAlpha = c.isAlpha :=
  case_forall (P := fun c => c.toUpper.isAlpha = c.isAlpha) (by decide) (fun _ hself _ _ => by rw [hself]) c

theorem toUpper_toUpper (c : Char) : c.toUpper.toUpper = c.toUpper :=
  case_forall (P := fun c => c.toUpper.toUpper = c.toUpper) (by decide) (fun _ hself _ _ => by rw [hself, hself]) c

theorem toUpper_toLower (c : Char) : c.toLower.toUpper = c.toUpper :=
  case_forall (P := fun c => c.toLower.toUpper = c.toUpper) (by decide) (fun _ _ hself _ => by rw [hself]) c

theorem toUpper_eq_iff (hx : x.isAlpha = false) : c.toUpper = x ↔ c = x := by
  constructor
  · intro h
    have hc : c.isAlpha = false := by
      rw [← isAlpha_toUpper, h, hx]
    rw [← h, toUpper_of_not_isAlpha hc]
  · rintro rfl
    exact toUpper_of_not_isAlpha hx

theorem beq_toUpper (hx : x.isAlpha = false) (c : Char) : (c.toUpper == x) = (c == x) := by
  rw [Bool.eq_iff_iff, beq_iff_eq, beq_iff_eq, toUpper_eq_iff hx]

theorem contains_toUpper {cs : Text} (h : ∀ x ∈ cs, x.isAlpha = false) (c : Char) :
    cs.contains c.toUpper = cs.contains c := by
  rw [Bool.eq_iff_iff, List.contains_iff_mem, List.contains_iff_mem]
  constructor
  · intro hc
    rwa [← (toUpper_eq_iff (h _ hc)).mp rfl] at hc
  · intro hc
    rwa [toUpper_of_not_isAlpha (h c hc)]

theorem contains_pair_toUpper {ps : List (Char × Char)} (h : ∀ p ∈ ps, p.1.isAlpha = false ∧ p.2.isAlpha = false)
    (c d : Char) : ps.contains (c.toUpper, d.toUpper) = ps.contains (c, d) := by
  rw [Bool.eq_iff_iff, List.contains_iff_mem, List.contains_iff_mem]
  constructor
  · intro hc
    obtain ⟨h1, h2⟩ : c.toUpper.isAlpha = false ∧ d.toUpper.isAlpha = false := h _ hc
    rwa [← (toUpper_eq_iff h1).mp rfl, ← (toUpper_eq_iff h2).mp rfl] at hc
  · intro hc
    obtain ⟨h1, h2⟩ : c.isAlpha = false ∧ d.isAlpha = false := h _ hc
    rwa [toUpper_of_not_isAlpha h1, toUpper_of_not_isAlpha h2]

theorem upperChar_toUpper (c : Char) : upperChar c.toUpper = upperChar c := by
  by_cases h : c.isAlpha = true
  · exact ascii_forall (P := fun c => upperChar c.toUpper = upperChar c) (by decide) (toNat_lt_of_isAlpha h)
  · rw [toUpper_of_not_isAlpha (by simpa using h)]

theorem startsName_toUpper (c : Char) : startsName c.toUpper = startsName c := by
  rw [startsName, upperChar_toUpper, startsName]

theorem continuesName_toUpper (c : Char) : continuesName c.toUpper = continuesName c := by
  rw [continuesName, upperChar_toUpper, continuesName]

theorem isBlank_toUpper (c : Char) : isBlank c.toUpper = isBlank c := by
  rw [isBlank, beq_toUpper rfl, beq_toUpper rfl, isBlank]

theorem isOrdinary_toUpper (c : Char) : isOrdinary c.toUpper = isOrdinary c := by
  simp only [isOrdinary, isDelimiter, isBlank_toUpper, bne, beq_toUpper (x := '(') rfl, beq_toUpper (x := ')') rfl,
    beq_toUpper (x := '\'') rfl, beq_toUpper (x := '"') rfl]

end

/-! ## Texts -/

section
variable {p : Char → Bool} {s t : Text}

theorem length_eq_of_folded (h : s.folded = t.folded) : s.length = t.length := by
  have := congrArg List.length h
  rwa [Text.folded, Text.folded, List.length_map, List.length_map] at this

theorem folded_cons (c : Char) (t : Text) : Text.folded (c :: t) = c.toUpper :: t.folded := rfl

theorem head?_folded (t : Text) : t.folded.head? = t.head?.map Char.toUpper := List.head?_map

theorem upper_folded (t : Text) : t.folded.upper = t.upper := by
  rw [Text.folded, Text.upper, List.flatMap_map, Text.upper]
  exact List.flatMap_congr fun c _ => upperChar_toUpper c

theorem takeWhile_folded (hp : ∀ c, p c.toUpper = p c) (t : Text) :
    t.folded.takeWhile p = Text.folded (t.takeWhile p) := by
  rw [Text.folded, List.takeWhile_map, Text.folded, show p ∘ Char.toUpper = p from funext hp]

theorem dropWhile_folded (hp : ∀ c, p c.toUpper = p c) (t : Text) :
    t.folded.dropWhile p = Text.folded (t.dropWhile p) := by
  rw [Text.folded, List.dropWhile_map, Text.folded, show p ∘ Char.toUpper = p from funext hp]

theorem length_takeWhile_folded (hp : ∀ c, p c.toUpper = p c) (t : Text) :
    (t.folded.takeWhile p).length = (t.takeWhile p).length := by
  rw [takeWhile_folded hp, Text.folded, List.length_map]

theorem all_folded (hp : ∀ c, p c.toUpper = p c) (t : Text) : t.folded.all p = t.all p := by
  rw [Text.folded, List.all_map, show p ∘ Char.toUpper = p from funext hp]

theorem next_folded (hp : ∀ c, p c.toUpper = p c) (t : Text) : next p t.folded = next p t := by
  rw [next, head?_folded, Option.any_map, next]
  simp only [hp]

/-! ## Names -/

theorem Word.isName_folded (t : Text) : isName t.folded = isName t := by
  cases t with
  | nil => rfl
  | cons c cs =>
    rw [folded_cons, isName, isName, startsName_toUpper, all_folded continuesName_toUpper]

theorem Word.splitSlash_folded (t : Text) :
    splitSlash t.folded = ((splitSlash t).1.folded, (splitSlash t).2.map Text.folded) := by
  have hp : ∀ c : Char, (c.toUpper != '/') = (c != '/') := fun c => by rw [bne, beq_toUpper rfl, bne]
  rw [splitSlash, splitSlash, List.span_eq_takeWhile_dropWhile, List.span_eq_takeWhile_dropWhile,
    takeWhile_folded hp, dropWhile_folded hp]
  cases t.dropWhile (· != '/') <;> rfl

theorem Word.isCommand_folded (t : Text) : isCommand t.folded = isCommand t := by
  rw [isCommand, splitSlash_folded, isCommand]
  obtain ⟨library, _ | name⟩ := splitSlash t
  · exact isName_folded library
  · simp only [Option.map_some, isName_folded, upper_folded]

/-! ## Marks -/

theorem Nesting.step_toUpper (n : Nesting) (c : Char) (next : Option Char) :
    n.step c.toUpper (next.map Char.toUpper) = n.step c next := by
  have hnext : next.map Char.toUpper = some '\'' ↔ next = some '\'' := by
    cases next with
    | none => simp
    | some d => simp only [Option.map_some, Option.some.injEq, toUpper_eq_iff (c := d) (x := '\'') rfl]
  have hsingle := toUpper_eq_iff (c := c) (x := '\'') rfl
  have hdouble := toUpper_eq_iff (c := c) (x := '"') rfl
  have hopen := toUpper_eq_iff (c := c) (x := '(') rfl
  have hclose := toUpper_eq_iff (c := c) (x := ')') rfl
  simp only [step, hnext, hsingle, hdouble, hopen, hclose]

theorem marksFrom_folded (n : Nesting) (i : Nat) (t : Text) :
    marksFrom n i t.folded = (marksFrom n i t).map Mark.folded := by
  induction t generalizing n i with
  | nil => rfl
  | cons c cs ih =>
    rw [folded_cons, marksFrom_cons, marksFrom_cons, head?_folded, Nesting.depthAt, Nesting.step_toUpper, ih]
    rfl

theorem Mark.inWord_folded (m : Mark) : m.folded.inWord = m.inWord := by
  rw [inWord, inWord, folded, isBlank_toUpper]

theorem wordLength_folded (t : Text) : wordLength t.folded = wordLength t := by
  rw [wordLength_eq, marks_eq, marksFrom_folded, List.takeWhile_map, List.length_map,
    show Mark.inWord ∘ Mark.folded = Mark.inWord from funext Mark.inWord_folded]
  rfl

theorem endOfLiteral_folded (t : Text) : endOfLiteral t.folded = endOfLiteral t := by
  rw [endOfLiteral, marks_eq, marksFrom_folded, List.find?_map, Text.folded, List.length_map, endOfLiteral,
    marks_eq]
  have hrole : ((fun m : Mark => m.role == .quoteClose) ∘ Mark.folded) = fun m => m.role == .quoteClose := rfl
  rw [hrole]
  cases (marksFrom .start 0 t).find? _ <;> rfl

/-! ## Tokens -/

theorem word_folded (t : Text) : word t.folded = (word t).folded := by
  rw [word, wordLength_folded, Text.folded, ← List.map_take]; rfl

theorem starKind_folded (t : Text) : starKind t.folded = starKind t := by
  have hlength := length_takeWhile_folded continuesName_toUpper t
  have hupper : Text.upper ('*' :: (t.folded.takeWhile continuesName)) =
      Text.upper ('*' :: t.takeWhile continuesName) := by
    rw [takeWhile_folded continuesName_toUpper, Text.upper_cons, upper_folded, Text.upper_cons]
  have hslash : (t.folded.drop (t.takeWhile continuesName).length).head? = some '/' ↔
      (t.drop (t.takeWhile continuesName).length).head? = some '/' := by
    rw [Text.folded, ← List.map_drop, List.head?_map]
    cases (t.drop (t.takeWhile continuesName).length).head? with
    | none => simp
    | some d => simp only [Option.map_some, Option.some.injEq, toUpper_eq_iff (c := d) (x := '/') rfl]
  have hword : wordLength ('*' :: t.folded) = wordLength ('*' :: t) := wordLength_folded ('*' :: t)
  simp only [starKind, hlength, hupper, hslash, hword]

theorem kindAt_folded (first : Bool) (c : Char) (cs : Text) :
    kindAt first c.toUpper cs.folded = kindAt first c cs := by
  have hliteral : endOfLiteral (c.toUpper :: cs.folded) = endOfLiteral (c :: cs) := endOfLiteral_folded (c :: cs)
  have hword : word (c.toUpper :: cs.folded) = (word (c :: cs)).folded := word_folded (c :: cs)
  have hlength : wordLength (c.toUpper :: cs.folded) = wordLength (c :: cs) := wordLength_folded (c :: cs)
  have hsingle : ∀ x ∈ charOperators, x.isAlpha = false := by simp [charOperators]
  have hpairs : ∀ p ∈ pairOperators, p.1.isAlpha = false ∧ p.2.isAlpha = false := by simp [pairOperators]
  have hpair : next (fun d => pairOperators.contains (c.toUpper, d)) cs.folded =
      next (fun d => pairOperators.contains (c, d)) cs := by
    rw [next, head?_folded, Option.any_map, next]
    simp only [contains_pair_toUpper hpairs]
  have hchar := fun (x : Char) (hx : x.isAlpha = false) => toUpper_eq_iff (c := c) hx
  have hfalse : kindAt false c.toUpper cs.folded = kindAt false c cs := by
    rw [kindAt_false, kindAt_false]
    simp only [isBlank_toUpper, hchar '(' rfl, hchar ')' rfl, hchar '\'' rfl, hchar '"' rfl, hchar '&' rfl,
      hchar '*' rfl,
      hchar '%' rfl, length_takeWhile_folded isBlank_toUpper, hliteral, next_folded isAlpha_toUpper,
      length_takeWhile_folded continuesName_toUpper, starKind_folded,
      length_takeWhile_folded isAlpha_toUpper, hpair, contains_toUpper hsingle, hword, Word.isName_folded,
      hlength]
  cases first with
  | false => exact hfalse
  | true => rw [kindAt_true, kindAt_true, hfalse, isOrdinary_toUpper, hword, Word.isCommand_folded, hlength]

theorem kindAt_eq_of_folded {c d : Char} {cs ds : Text} (h : Text.folded (c :: cs) = Text.folded (d :: ds))
    (first : Bool) :
    kindAt first c cs = kindAt first d ds := by
  obtain ⟨hc, hcs⟩ := List.cons.inj h
  have hcs' : cs.folded = ds.folded := hcs
  rw [← kindAt_folded, hc, hcs', kindAt_folded]

end

end ControlLanguage
