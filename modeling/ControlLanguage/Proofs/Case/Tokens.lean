import ControlLanguage.Format.Basic
import ControlLanguage.Proofs.Case.Letters

/-!
# Tokens in another letter case

Where a text is ASCII outside of its literals, putting it in upper or lower
case and cutting it into tokens can be done in either order: `ofText_apply`.
The literals stay as they are, also those inside of words.
-/

namespace ControlLanguage

open Token

/-- Outside of literals all characters are ASCII. -/
def PlainAscii (t : Text) : Prop := ∀ m ∈ marks t, m.role.inLiteral = false → m.char.toNat < 128

/-! ## Characters -/

namespace LetterCase

def change : LetterCase → Char → Char
  | upper => Char.toUpper
  | lower => Char.toLower
  | asWritten => id

/-- What becomes of a character that plays a part. -/
def changePart (l : LetterCase) (p : Role × Char) : Char := if p.1.inLiteral then p.2 else l.change p.2

theorem toUpper_change (l : LetterCase) (c : Char) : (l.change c).toUpper = c.toUpper := by
  cases l with
  | upper => exact toUpper_toUpper c
  | lower => exact toUpper_toLower c
  | asWritten => rfl

theorem toUpper_changePart (l : LetterCase) (p : Role × Char) : (l.changePart p).toUpper = p.2.toUpper := by
  rw [changePart]
  split
  · rfl
  · exact l.toUpper_change p.2

end LetterCase

/-! ## Texts -/

section
variable {l : LetterCase} {s t w rest : Text}

theorem flatMap_marks_eq_map (h : PlainAscii t) {f : Char → Text} (hf : ∀ c, c.toNat < 128 → f c = [l.change c]) :
    ((marks t).flatMap fun m => if m.role.inLiteral then [m.char] else f m.char) =
      (marks t).map fun m => l.changePart m.part := by
  rw [List.map_eq_flatMap]
  refine List.flatMap_congr fun m hm => ?_
  rw [LetterCase.changePart, Mark.part]
  split
  · rfl
  · next hlit => exact hf _ (h m hm (by simpa using hlit))

theorem LetterCase.apply_eq_map (h : PlainAscii t) : l.apply t = (marks t).map fun m => l.changePart m.part := by
  cases l with
  | upper => exact flatMap_marks_eq_map h fun _ => upperChar_of_ascii
  | lower => exact flatMap_marks_eq_map h fun _ => lowerChar_of_ascii
  | asWritten =>
    have hchar : (fun m : Mark => asWritten.changePart m.part) = fun m => m.char := by
      funext m
      rw [changePart]
      split <;> rfl
    rw [hchar, marks_eq, map_char_marksFrom]; rfl

theorem folded_changePart (n : Nesting) (i : Nat) (t : Text) :
    Text.folded ((marksFrom n i t).map fun m => l.changePart m.part) = t.folded := by
  conv_rhs => rw [← map_char_marksFrom n i t]
  rw [Text.folded, Text.folded, List.map_map, List.map_map]
  exact List.map_congr_left fun m _ => l.toUpper_changePart m.part

theorem folded_apply (h : PlainAscii t) : (l.apply t).folded = t.folded := by
  rw [LetterCase.apply_eq_map h]
  exact folded_changePart ..

/-! ## Parts of a text -/

/-- A text that is cut outside of literals has the parts of its pieces. -/
theorem map_part_marks_append (h : rest ≠ [] → (Nesting.start.after rest.head? w).mode = .outside) :
    (marks (w ++ rest)).map Mark.part = (marks w).map Mark.part ++ (marks rest).map Mark.part := by
  by_cases hr : rest = []
  · rw [hr, List.append_nil]; simp [marks, marksFrom]
  · have hmode := h hr
    rw [marks_eq, marksFrom_append, List.map_append, marks_eq, marks_eq, marksFrom_eq_marksBefore _ 0 w,
      (marksBefore_of_outside hmode 0).1]
    generalize Nesting.start.after rest.head? w = n at hmode
    obtain ⟨mode, d⟩ := n
    obtain rfl : mode = .outside := hmode
    rw [← start_deeper, marksFrom_eq_marksBefore, marksFrom_eq_marksBefore,
      map_part_marksBefore_deeper none .start d _ 0]

theorem plainAscii_iff : PlainAscii t ↔ ∀ p ∈ (marks t).map Mark.part, p.1.inLiteral = false → p.2.toNat < 128 := by
  rw [List.forall_mem_map]; rfl

theorem plainAscii_append (h : rest ≠ [] → (Nesting.start.after rest.head? w).mode = .outside) :
    PlainAscii (w ++ rest) ↔ PlainAscii w ∧ PlainAscii rest := by
  rw [plainAscii_iff, map_part_marks_append h, List.forall_mem_append, ← plainAscii_iff, ← plainAscii_iff]

theorem LetterCase.apply_append (h : rest ≠ [] → (Nesting.start.after rest.head? w).mode = .outside)
    (hp : PlainAscii (w ++ rest)) : l.apply (w ++ rest) = l.apply w ++ l.apply rest := by
  obtain ⟨hw, hr⟩ := (plainAscii_append h).mp hp
  have hmap : ∀ t : Text, ((marks t).map fun m => l.changePart m.part) =
      ((marks t).map Mark.part).map l.changePart :=
    fun t => by rw [List.map_map]; rfl
  rw [apply_eq_map hp, apply_eq_map hw, apply_eq_map hr, hmap, hmap, hmap, map_part_marks_append h, List.map_append]

/-! ## Literals -/

theorem Nesting.step_eq_of_toUpper {c d : Char} {a b : Option Char} (n : Nesting) (hc : c.toUpper = d.toUpper)
    (hn : a.map Char.toUpper = b.map Char.toUpper) : n.step c a = n.step d b := by
  rw [← step_toUpper, hc, hn, step_toUpper]

theorem marksFrom_cons_of_step {n : Nesting} {c d : Char} {cs ds : Text} (h : n.step d ds.head? = n.step c cs.head?)
    (i : Nat) : marksFrom n i (d :: ds) = ⟨i, d, (n.step c cs.head?).1, n.depthAt c cs.head?⟩ ::
      marksFrom (n.step c cs.head?).2 (i + 1) ds := by
  rw [marksFrom_cons, Nesting.depthAt, h]; rfl

theorem marksFrom_changePart (n : Nesting) (i : Nat) (t : Text) :
    marksFrom n i ((marksFrom n i t).map fun m => l.changePart m.part) =
      (marksFrom n i t).map fun m => { m with char := l.changePart m.part } := by
  induction t generalizing n i with
  | nil => rfl
  | cons c cs ih =>
    have hnext := congrArg List.head? (folded_changePart (l := l) (n.step c cs.head?).2 (i + 1) cs)
    rw [head?_folded, head?_folded] at hnext
    have hstep := n.step_eq_of_toUpper (l.toUpper_changePart ((n.step c cs.head?).1, c)) hnext
    rw [marksFrom_cons n i c cs, List.map_cons, List.map_cons]
    refine (marksFrom_cons_of_step hstep i).trans ?_
    rw [ih]; rfl

theorem literal_marks_apply (h : PlainAscii t) :
    (marks (l.apply t)).filter (·.role.inLiteral) = (marks t).filter (·.role.inLiteral) := by
  rw [LetterCase.apply_eq_map h, marks_eq, marks_eq, marksFrom_changePart, List.filter_map]
  refine (List.map_congr_left fun m hm => ?_).trans (List.map_id _)
  have hlit : m.role.inLiteral = true := (List.mem_filter.mp hm).2
  rw [LetterCase.changePart, Mark.part, if_pos hlit]
  rfl

theorem apply_of_inLiteral (h : ∀ m ∈ marks t, m.role.inLiteral = true) : l.apply t = t := by
  have hp : PlainAscii t := fun m hm hlit => absurd (h m hm) (by simp [hlit])
  rw [LetterCase.apply_eq_map hp]
  conv_rhs => rw [← map_char_marksFrom .start 0 t]
  refine List.map_congr_left fun m hm => ?_
  rw [LetterCase.changePart, Mark.part, if_pos (h m hm)]

/-! ## Tokens -/

theorem LetterCase.apply_nil (l : LetterCase) : l.apply [] = [] := by
  cases l <;> rfl

theorem LetterCase.apply_blank (l : LetterCase) : l.apply [' '] = [' '] := by
  cases l <;> rfl

end

namespace Token

def mapText (g : Text → Text) (t : Token) : Token := { t with text := g t.text }

section
variable {l : LetterCase} {first : Bool} {pos : Nat} {c : Char} {k : TokenKind} {t u : Token} {text v rest : Text}

theorem mode_of_kindAt (h : kindAt first c (v ++ rest) = (k, v.length)) :
    rest ≠ [] → (Nesting.start.after rest.head? (c :: v)).mode = .outside :=
  fun hr => (scanned_of_kindAt h).mode_after hr 0

theorem readFrom_apply (first : Bool) (pos : Nat) (text : Text) (h : PlainAscii text) :
    readFrom first pos (l.apply text) = (readFrom first pos text).map (mapText l.apply) := by
  induction first, pos, text using readFrom_induction with
  | nil first pos => rw [l.apply_nil, readFrom_nil]; rfl
  | token first pos c v rest k hk ih =>
    have hmode := mode_of_kindAt hk
    obtain ⟨hw, hr⟩ := (plainAscii_append hmode).mp h
    have hfolded := folded_apply (l := l) h
    rw [LetterCase.apply_append hmode h] at hfolded ⊢
    have hlength := length_eq_of_folded (folded_apply (l := l) hw)
    obtain ⟨d, w, hd⟩ := List.exists_cons_of_length_eq_add_one hlength
    rw [hd] at hfolded hlength ⊢
    have hkind : kindAt first d (w ++ l.apply rest) = (k, w.length) := by
      rw [Nat.succ_injective hlength]
      exact (kindAt_eq_of_folded hfolded first).trans hk
    rw [readFrom_token hkind, readFrom_token hk, List.map_cons, hlength, ih hr, mapText, apply_ite l.apply,
      l.apply_blank,
      hd]

theorem plainAscii_of_mem_readFrom (h : PlainAscii text) (hu : u ∈ readFrom first pos text) :
    PlainAscii u.text := by
  obtain ⟨front, later, hsplit⟩ := List.append_of_mem hu
  obtain ⟨⟨before, first', c, v, rest, rfl, hkind, htext, -, hout⟩, -⟩ := exists_place hsplit
  have hmode : (Nesting.start.after (c :: v ++ rest).head? before).mode = .outside := hout 0
  obtain ⟨-, hafter⟩ := (plainAscii_append fun _ => hmode).mp h
  rw [htext]
  split
  · unfold PlainAscii; decide
  · exact ((plainAscii_append (mode_of_kindAt hkind)).mp hafter).1

theorem apply_of_mem_readFrom (hu : u ∈ readFrom first pos text) (hk : u.kind = .string) :
    l.apply u.text = u.text := by
  obtain ⟨front, later, hsplit⟩ := List.append_of_mem hu
  obtain ⟨p, -⟩ := exists_place hsplit
  have hkind := p.kindAt_eq
  rw [hk] at hkind
  obtain ⟨hc, hend⟩ := literal_of_kindAt hkind
  rw [p.text_of_kind hk]
  apply apply_of_inLiteral
  rw [marks_eq, marksFrom_eq_marksBefore]
  exact inLiteral_of_endOfLiteral hc hend none

theorem mode_after_blanks (next : Option Char) (text : Text) :
    (Nesting.start.after next (text.takeWhile isBlank)).mode = .outside := by
  have := Nesting.after_blanks next text []
  rw [List.append_nil] at this
  rw [this]; rfl

theorem plainAscii_blanks (h : PlainAscii text) :
    PlainAscii (text.takeWhile isBlank) ∧ PlainAscii (text.dropWhile isBlank) := by
  rw [← plainAscii_append fun _ => mode_after_blanks _ text, List.takeWhile_append_dropWhile]
  exact h

theorem plainAscii_of_mem_ofText (h : PlainAscii text) (hu : u ∈ ofText text) : PlainAscii u.text :=
  plainAscii_of_mem_readFrom (plainAscii_blanks h).2 hu

theorem ofText_apply (h : PlainAscii text) : ofText (l.apply text) = (ofText text).map (mapText l.apply) := by
  obtain ⟨hblank, hrest⟩ := plainAscii_blanks h
  have happly := LetterCase.apply_append (l := l) (fun _ => mode_after_blanks _ text)
    (by rwa [List.takeWhile_append_dropWhile (p := isBlank)])
  rw [List.takeWhile_append_dropWhile] at happly
  have hlength : ((l.apply text).takeWhile isBlank).length = (text.takeWhile isBlank).length := by
    rw [← length_takeWhile_folded isBlank_toUpper, folded_apply h, length_takeWhile_folded isBlank_toUpper]
  have hdrop : (l.apply text).dropWhile isBlank = l.apply (text.dropWhile isBlank) := by
    rw [← drop_length_takeWhile, hlength, happly, ← length_eq_of_folded (folded_apply (l := l) hblank),
      List.drop_left]
  rw [ofText, hlength, hdrop, readFrom_apply _ _ _ hrest, ofText]

end

end Token

end ControlLanguage
