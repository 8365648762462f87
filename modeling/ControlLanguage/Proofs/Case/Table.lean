import ControlLanguage.Text.Case

/-!
# What the tables of letter case say

A character that no run covers is its own upper case, so what is checked of
the runs holds of the upper case of every character. No character becomes
nothing, none becomes white space or an ASCII character other than a capital
letter, and what a character becomes is its own upper case.
-/

namespace ControlLanguage

namespace CaseRun

variable {r : CaseRun} {rs : List CaseRun} {n m : Nat} {ns ms : List Nat}

/-! ## Runs -/

theorem covers_iff : r.covers n = true ↔ r.first ≤ n ∧ n ≤ r.last ∧ (n - r.first) % r.step = 0 := by
  rw [covers, Bool.and_eq_true, Bool.and_eq_true, decide_eq_true_iff, decide_eq_true_iff, beq_iff_eq, and_assoc]

theorem convert_cases (rs : List CaseRun) (n : Nat) :
    convert rs n = [n] ∨ ∃ r ∈ rs, r.covers n = true ∧ convert rs n = r.mapped n := by
  induction rs with
  | nil => exact .inl rfl
  | cons r rs ih =>
    rw [convert]
    split
    · exact .inl rfl
    · split
      · next hr => exact .inr ⟨r, List.mem_cons_self .., hr, rfl⟩
      · exact ih.imp_right fun ⟨r, hr, h⟩ => ⟨r, List.mem_cons_of_mem _ hr, h⟩

/-! ## Runs written out -/

def codes (r : CaseRun) : List Nat :=
  (List.range ((r.last - r.first) / r.step + 1)).map fun i => r.first + r.step * i

theorem mem_codes (h : r.covers n = true) : n ∈ r.codes := by
  obtain ⟨hfirst, hlast, hstep⟩ := covers_iff.1 h
  refine List.mem_map.2 ⟨(n - r.first) / r.step, List.mem_range.2 ?_, ?_⟩
  · exact Nat.lt_succ_of_le (Nat.div_le_div_right (by omega))
  · rw [Nat.mul_div_cancel' (Nat.dvd_of_mod_eq_zero hstep)]
    omega

/-- A set of numbers as one number. -/
def bits (ns : List Nat) : Nat := ns.foldr (fun n b => b ||| 1 <<< n) 0

theorem testBit_bits (h : n ∈ ns) : (bits ns).testBit n = true := by
  induction ns with
  | nil => cases h
  | cons m ns ih =>
    rw [bits, List.foldr_cons, Nat.testBit_or, Nat.one_shiftLeft, ← bits]
    rcases List.mem_cons.1 h with rfl | h
    · rw [Nat.testBit_two_pow_self, Bool.or_true]
    · rw [ih h, Bool.true_or]

theorem notMem_of_bits (h : bits ns &&& bits ms = 0) (hn : n ∈ ns) : n ∉ ms := by
  intro hm
  have hbit := congrArg (Nat.testBit · n) h
  simp only [Nat.testBit_and, testBit_bits hn, testBit_bits hm, Nat.zero_testBit] at hbit
  cases hbit

/-! ## Regions -/

def within (regions : List (Nat × Nat)) (lo hi : Nat) : Bool := regions.any fun i => i.1 ≤ lo && hi ≤ i.2

/-- The blocks of the letters with two cases, those of ASCII apart. -/
def blocks : List (Nat × Nat) :=
  [(0xB5, 0x13FF), (0x1C80, 0x1FFF), (0x2100, 0x2FFF), (0xA640, 0xABFF), (0xFB00, 0x1EFFF)]

/-- The characters of the run are small ASCII letters or others with two cases, and so are what they become, as
capital letters. -/
def isPlaced (r : CaseRun) : Bool :=
  within ((0x61, 0x7A) :: blocks) r.first r.last &&
    within ((0x41, 0x5A) :: blocks) r.image (r.image + (r.last - r.first)) &&
      r.tail.all fun m => within ((0x41, 0x5A) :: blocks) m m

theorem exists_of_within {regions : List (Nat × Nat)} {lo hi : Nat} (h : within regions lo hi = true) (hlo : lo ≤ n)
    (hhi : n ≤ hi) : ∃ i ∈ regions, i.1 ≤ n ∧ n ≤ i.2 := by
  obtain ⟨i, hi, hb⟩ := List.any_eq_true.1 h
  rw [Bool.and_eq_true, decide_eq_true_iff, decide_eq_true_iff] at hb
  exact ⟨i, hi, Nat.le_trans hb.1 hlo, Nat.le_trans hhi hb.2⟩

theorem exists_block_of_covers (h : r.isPlaced = true) (hn : r.covers n = true) :
    ∃ i ∈ (0x61, 0x7A) :: blocks, i.1 ≤ n ∧ n ≤ i.2 := by
  rw [isPlaced, Bool.and_eq_true, Bool.and_eq_true] at h
  obtain ⟨hfirst, hlast, -⟩ := covers_iff.1 hn
  exact exists_of_within h.1.1 hfirst hlast

theorem exists_block_of_mem_mapped (h : r.isPlaced = true) (hn : r.covers n = true) (hm : m ∈ r.mapped n) :
    ∃ i ∈ (0x41, 0x5A) :: blocks, i.1 ≤ m ∧ m ≤ i.2 := by
  rw [isPlaced, Bool.and_eq_true, Bool.and_eq_true] at h
  obtain ⟨hfirst, hlast, -⟩ := covers_iff.1 hn
  rcases List.mem_cons.1 hm with rfl | hm
  · exact exists_of_within h.1.2 (by omega) (by omega)
  · exact exists_of_within (List.all_eq_true.1 h.2 m hm) (Nat.le_refl m) (Nat.le_refl m)

theorem isPlaced_upperRuns : ∀ r ∈ upperRuns, r.isPlaced = true :=
  List.all_eq_true.1 (by decide +kernel)

end CaseRun

open CaseRun

/-! ## ASCII characters -/

section
variable {c u : Char}

theorem ascii_forall {P : Char → Prop} (h : ∀ n < 128, P (Char.ofNat n)) (hc : c.toNat < 128) : P c := by
  have := h c.toNat hc
  rwa [Char.ofNat_toNat] at this

theorem upperChar_of_ascii (h : c.toNat < 128) : upperChar c = [c.toUpper] :=
  ascii_forall (P := fun c => upperChar c = [c.toUpper]) (by decide) h

theorem lowerChar_of_ascii (h : c.toNat < 128) : lowerChar c = [c.toLower] :=
  ascii_forall (P := fun c => lowerChar c = [c.toLower]) (by decide) h

theorem isAlpha_iff : c.isAlpha = true ↔ 65 ≤ c.toNat ∧ c.toNat ≤ 90 ∨ 97 ≤ c.toNat ∧ c.toNat ≤ 122 := by
  unfold Char.isAlpha Char.isUpper Char.isLower
  simp only [Bool.or_eq_true, Bool.and_eq_true, decide_eq_true_eq, UInt32.le_iff_toNat_le]
  rfl

/-! ## The upper case of a character -/

theorem toNat_ofNat {n : Nat} (h : n.isValidChar) : (Char.ofNat n).toNat = n := by
  rw [Char.ofNat, dif_pos h]
  rfl

theorem isValidChar_of_block {i : Nat × Nat} {n : Nat} (hi : i ∈ (0x41, 0x5A) :: blocks) (hn : i.1 ≤ n ∧ n ≤ i.2) :
    n.isValidChar := by
  simp only [blocks, List.mem_cons, List.not_mem_nil, or_false] at hi
  rcases hi with rfl | rfl | rfl | rfl | rfl | rfl
  all_goals simp only at hn; unfold Nat.isValidChar; omega

theorem upperChar_cases (c : Char) : upperChar c = [c] ∨
    ∃ r ∈ upperRuns, r.covers c.toNat = true ∧ (upperChar c).map Char.toNat = r.mapped c.toNat := by
  rcases convert_cases upperRuns c.toNat with h | ⟨r, hr, hc, h⟩
  · left
    rw [upperChar, h, List.map_singleton, Char.ofNat_toNat]
  · refine .inr ⟨r, hr, hc, ?_⟩
    rw [upperChar, h, List.map_map]
    refine (List.map_congr_left fun m hm => ?_).trans (List.map_id _)
    obtain ⟨i, hi, hb⟩ := exists_block_of_mem_mapped (isPlaced_upperRuns r hr) hc hm
    exact toNat_ofNat (isValidChar_of_block hi hb)

theorem upperChar_ne_nil (c : Char) : upperChar c ≠ [] := by
  intro hnil
  rcases upperChar_cases c with h | ⟨r, -, -, h⟩ <;> rw [hnil] at h <;> cases h

theorem mem_upperChar_cases (h : u ∈ upperChar c) :
    u = c ∧ upperChar c = [c] ∨ ∃ r ∈ upperRuns, r.covers c.toNat = true ∧ u.toNat ∈ r.mapped c.toNat := by
  rcases upperChar_cases c with hc | ⟨r, hr, hc, hmap⟩
  · exact .inl ⟨List.mem_singleton.1 (hc ▸ h), hc⟩
  · exact .inr ⟨r, hr, hc, hmap ▸ List.mem_map_of_mem h⟩

theorem exists_block_of_mem_upperChar (h : u ∈ upperChar c) (hne : u ≠ c) :
    ∃ i ∈ (0x41, 0x5A) :: blocks, i.1 ≤ u.toNat ∧ u.toNat ≤ i.2 := by
  rcases mem_upperChar_cases h with ⟨hu, -⟩ | ⟨r, hr, hc, hu⟩
  · exact absurd hu hne
  · exact exists_block_of_mem_mapped (isPlaced_upperRuns r hr) hc hu

theorem le_toNat_of_mem_upperChar (h : u ∈ upperChar c) (hne : u ≠ c) : 0x41 ≤ u.toNat := by
  obtain ⟨i, hi, hb, -⟩ := exists_block_of_mem_upperChar h hne
  have hle : ∀ i ∈ (0x41, 0x5A) :: blocks, 0x41 ≤ i.1 := by decide
  exact Nat.le_trans (hle i hi) hb

theorem upperChar_of_mem_upperChar (h : u ∈ upperChar c) : upperChar u = [u] := by
  -- no character that a run covers is an image
  have hfixed :
      bits (upperRuns.flatMap fun r => r.codes.flatMap r.mapped) &&& bits (upperRuns.flatMap codes) = 0 := by
    decide +kernel
  rcases mem_upperChar_cases h with ⟨rfl, hc⟩ | ⟨r, hr, hc, hm⟩
  · exact hc
  · have himage : u.toNat ∈ upperRuns.flatMap fun r => r.codes.flatMap r.mapped :=
      List.mem_flatMap.2 ⟨r, hr, List.mem_flatMap.2 ⟨c.toNat, mem_codes hc, hm⟩⟩
    rcases upperChar_cases u with hu | ⟨s, hs, hu, -⟩
    · exact hu
    · exact absurd (List.mem_flatMap.2 ⟨s, hs, mem_codes hu⟩) (notMem_of_bits hfixed himage)

theorem isSpace_of_block {i : Nat × Nat} (hi : i ∈ (0x41, 0x5A) :: (0x61, 0x7A) :: blocks)
    (hc : i.1 ≤ c.toNat ∧ c.toNat ≤ i.2) : isSpace c = false := by
  rw [Bool.eq_false_iff, ne_eq, isSpace]
  simp only [blocks, List.mem_cons, List.not_mem_nil, or_false] at hi
  simp only [Bool.or_eq_true, Bool.and_eq_true, decide_eq_true_eq, beq_iff_eq]
  rcases hi with rfl | rfl | rfl | rfl | rfl | rfl | rfl
  all_goals simp only at hc; omega

theorem isSpace_of_mem_upperChar (h : u ∈ upperChar c) (hne : u ≠ c) : isSpace u = false := by
  obtain ⟨i, hi, hb⟩ := exists_block_of_mem_upperChar h hne
  rcases List.mem_cons.1 hi with rfl | hi
  · exact isSpace_of_block (List.mem_cons_self ..) hb
  · exact isSpace_of_block (List.mem_cons_of_mem _ (List.mem_cons_of_mem _ hi)) hb

theorem upperChar_of_isSpace (h : isSpace c = true) : upperChar c = [c] := by
  rcases upperChar_cases c with hc | ⟨r, hr, hc, -⟩
  · exact hc
  · obtain ⟨i, hi, hb⟩ := exists_block_of_covers (isPlaced_upperRuns r hr) hc
    rw [isSpace_of_block (List.mem_cons_of_mem _ hi) hb] at h
    cases h

/-! ## What becomes ASCII -/

theorem image_of_tail_eq_nil {r : CaseRun} (hr : r ∈ upperRuns) : r.tail = [] → 0x5A < r.image ∨
    0x61 ≤ r.first ∧ r.last ≤ 0x7A ∨ r.first = r.last ∧ (r.image = 0x49 ∨ r.image = 0x53) := by
  have hall : upperRuns.all (fun r => r.tail = [] → 0x5A < r.image ∨
      0x61 ≤ r.first ∧ r.last ≤ 0x7A ∨ r.first = r.last ∧ (r.image = 0x49 ∨ r.image = 0x53)) = true := by
    decide +kernel
  exact of_decide_eq_true (List.all_eq_true.1 hall r hr)

theorem image_of_tail_ne_nil {r : CaseRun} (hr : r ∈ upperRuns) : r.tail ≠ [] → 0x5A < r.image ∨
    r.first = r.last ∧ r.image ∉ "*LIBL".toList.map Char.toNat := by
  have hall : upperRuns.all (fun r => r.tail ≠ [] → 0x5A < r.image ∨
      r.first = r.last ∧ r.image ∉ "*LIBL".toList.map Char.toNat) = true := by
    decide +kernel
  exact of_decide_eq_true (List.all_eq_true.1 hall r hr)

/-- All capital letters but `I` and `S` are the upper cases of plain letters only. -/
theorem isAlpha_of_upperChar (h : upperChar c = [u]) (hu : 65 ≤ u.toNat ∧ u.toNat ≤ 90) (hi : u.toNat ≠ 73)
    (hs : u.toNat ≠ 83) : c.isAlpha = true := by
  rw [isAlpha_iff]
  rcases upperChar_cases c with hc | ⟨r, hr, hc, hmap⟩
  · cases hc.symm.trans h
    exact .inl hu
  · obtain ⟨hfirst, hlast, -⟩ := covers_iff.1 hc
    rw [h, mapped] at hmap
    obtain ⟨himage, htail⟩ := List.cons.inj hmap
    have := image_of_tail_eq_nil hr htail.symm
    omega

/-- No letter expands to characters of `*LIBL` only. -/
theorem exists_upperChar_eq_singleton (h : ∀ u ∈ upperChar c, u ∈ "*LIBL".toList) : ∃ u, upperChar c = [u] := by
  rcases upperChar_cases c with hc | ⟨r, hr, hc, hmap⟩
  · exact ⟨c, hc⟩
  · obtain ⟨u, us, hus⟩ := List.exists_cons_of_ne_nil (upperChar_ne_nil c)
    rw [hus, mapped] at hmap
    obtain ⟨himage, htail⟩ := List.cons.inj hmap
    by_cases hnil : r.tail = []
    · exact ⟨u, by rw [hus, List.map_eq_nil_iff.1 (htail.trans hnil)]⟩
    · have hcode : u.toNat ∈ "*LIBL".toList.map Char.toNat :=
        List.mem_map_of_mem (h u (hus ▸ List.mem_cons_self ..))
      have hle : ∀ n ∈ "*LIBL".toList.map Char.toNat, n ≤ 0x5A := by decide
      obtain ⟨hfirst, hlast, -⟩ := covers_iff.1 hc
      rcases image_of_tail_ne_nil hr hnil with hfar | ⟨hone, hletter⟩
      · exact absurd (hle _ hcode) (by omega)
      · rw [himage, show c.toNat - r.first = 0 by omega, Nat.zero_add] at hcode
        exact absurd hcode hletter

end

end ControlLanguage
