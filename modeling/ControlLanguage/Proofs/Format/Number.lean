import Mathlib.Data.List.TakeDrop
import Mathlib.Data.List.TakeWhile
import ControlLanguage.Format.Settings
import ControlLanguage.Proofs.Case.Table

/-!
# Numbers as settings spell them

A whole number that is written in digits is read back, also with zeros in
front of it and white space around it: `number?_digits`.
-/

namespace ControlLanguage

/-! ## Digits -/

theorem exists_toDigits (n : Nat) : ∃ d ds, Nat.toDigits 10 n = d :: ds ∧ d.isDigit = true ∧ (d = '0' → n = 0) := by
  induction n using Nat.strongRecOn with
  | ind n ih =>
    by_cases hn : n < 10
    · refine ⟨n.digitChar, [], Nat.toDigits_of_lt_base hn, ?_, Nat.digitChar_eq_zero.1⟩
      rw [Nat.isDigit_digitChar, decide_eq_true hn]
    · obtain ⟨d, ds, hd, hdigit, hzero⟩ := ih (n / 10) (by omega)
      refine ⟨d, ds ++ [(n % 10).digitChar], ?_, hdigit, fun h => ?_⟩
      · rw [Nat.toDigits_of_base_le (by decide) (by omega), hd, List.cons_append]
      · have := hzero h
        omega

theorem isDigit_of_mem_toDigits {c : Char} {n : Nat} (h : c ∈ Nat.toDigits 10 n) : c.isDigit = true :=
  Nat.isDigit_of_mem_toDigits (by decide) (by decide) h

theorem toNat_of_isDigit {c : Char} (h : c.isDigit = true) : 48 ≤ c.toNat ∧ c.toNat ≤ 57 := by
  simpa [Char.isDigit, UInt32.le_iff_toNat_le] using h

theorem isPadding_of_isDigit {c : Char} (h : c.isDigit = true) : isPadding c = false := by
  have := toNat_of_isDigit h
  refine ascii_forall (P := fun c => c.isDigit = true → isPadding c = false) (by decide) (by omega) h

namespace Settings

section
variable {t s s' : Text}

theorem dropPadding_eq (hs : ∀ c ∈ s, isPadding c = true) (hs' : ∀ c ∈ s', isPadding c = true)
    (ht : ∀ c ∈ t, isPadding c = false) : Text.dropPadding (s ++ t ++ s') = t := by
  have hself : ∀ u : Text, (∀ c ∈ u, isPadding c = false) → u.dropWhile isPadding = u := by
    intro u hu
    cases u with
    | nil => rfl
    | cons c u => exact List.dropWhile_cons_of_neg (by simp [hu c (List.mem_cons_self ..)])
  rw [Text.dropPadding, List.append_assoc, List.dropWhile_append_of_pos hs]
  cases t with
  | nil =>
    rw [List.nil_append, ← List.append_nil s', List.dropWhile_append_of_pos hs']
    rfl
  | cons c t =>
    rw [List.cons_append, List.dropWhile_cons_of_neg (by simp [ht c (List.mem_cons_self ..)]), ← List.cons_append,
      List.reverse_append, List.dropWhile_append_of_pos (by simpa using hs'),
      hself _ (fun c hc => ht c (List.mem_reverse.1 hc)),
      List.reverse_reverse]

theorem dropLeadingZeros?_digits (k n : Nat) :
    dropLeadingZeros? (List.replicate k '0' ++ Nat.toDigits 10 n) = some (Nat.toDigits 10 n) := by
  obtain ⟨d, ds, hd, hdigit, hzero⟩ := exists_toDigits n
  by_cases h : d = '0'
  · -- all digits are zeros, and the last one stays
    have hall : List.replicate k '0' ++ Nat.toDigits 10 n = '0' :: List.replicate k '0' := by
      rw [hzero h, Nat.toDigits_zero, ← List.replicate_succ, List.replicate_succ']
    have hzeros : (List.replicate k '0').takeWhile (fun c => c == '0' || c == '_') = List.replicate k '0' := by
      rw [List.takeWhile_replicate]; rfl
    rw [hall, dropLeadingZeros?]
    simp only [hzeros, List.drop_length]
    rw [← List.replicate_succ, List.length_replicate, List.drop_replicate, Nat.add_sub_cancel_left, hzero h]
    rfl
  · have hstop : (d == '0' || d == '_') = false := by
      rw [beq_false_of_ne h, Bool.false_or]
      exact beq_false_of_ne (by rintro rfl; exact absurd hdigit (by decide))
    rw [hd]
    cases k with
    | zero =>
      rw [List.replicate_zero, List.nil_append]
      unfold dropLeadingZeros?
      split
      · next heq => exact absurd (List.cons.inj heq).1 h
      · next heq =>
        rw [← (List.cons.inj heq).1, hdigit]
        rfl
      · next heq => cases heq
    | succ k =>
      have hzeros : (List.replicate k '0' ++ d :: ds).takeWhile (fun c => c == '0' || c == '_') =
          List.replicate k '0' := by
        rw [List.takeWhile_append_of_pos (by simp), List.takeWhile_cons_of_neg (by simp [hstop]), List.append_nil]
      rw [List.replicate_succ, List.cons_append, dropLeadingZeros?]
      simp only [hzeros, List.drop_left, hdigit, Bool.true_or, if_true]

theorem dropZeroFraction_eq_self (h : '.' ∉ t) : dropZeroFraction t = t := by
  have hspan : t.span (· != '.') = (t, []) := by
    have hall : ∀ c ∈ t, (c != '.') = true := fun c hc => bne_iff_ne.2 fun he => h (he ▸ hc)
    rw [List.span_eq_takeWhile_dropWhile, List.takeWhile_eq_self_iff.2 hall, List.dropWhile_eq_nil_iff.2 hall]
  rw [dropZeroFraction, hspan]

theorem groupedDigits?_of_isDigit (hne : t ≠ []) (h : ∀ c ∈ t, c.isDigit = true) :
    Text.groupedDigits? asciiDigit? t = some (t.map fun c => c.toNat - 48) := by
  have hvalue : ∀ {c : Char}, c.isDigit = true → asciiDigit? c = some (c.toNat - 48) :=
    fun hc => by rw [asciiDigit?, if_pos hc]
  induction t with
  | nil => exact absurd rfl hne
  | cons c t ih =>
    obtain ⟨hc, ht⟩ := List.forall_mem_cons.1 h
    cases t with
    | nil => rw [Text.groupedDigits?, hvalue hc]; rfl
    | cons d t =>
      have hd : d ≠ '_' := by rintro rfl; exact absurd (ht _ (List.mem_cons_self ..)) (by decide)
      rw [Text.groupedDigits?, hvalue hc, ih (List.cons_ne_nil _ _) ht]
      · rfl
      · exact fun heq => nomatch heq
      · exact fun _ heq => hd (List.cons.inj heq).1

theorem digits?_toDigits (n : Nat) : digits? (Nat.toDigits 10 n) = some n := by
  have hall : ∀ c ∈ Nat.toDigits 10 n, c.isDigit = true := fun c => isDigit_of_mem_toDigits
  have hvalue : Text.ofDigits ((Nat.toDigits 10 n).map fun c => c.toNat - 48) = n := by
    rw [Text.ofDigits, List.foldl_map]
    exact Nat.ofDigitChars_ten_toDigits
  rw [digits?, groupedDigits?_of_isDigit Nat.toDigits_ne_nil hall]
  split
  · next heq =>
    obtain ⟨d, ds, hd, hdigit, hzero⟩ := exists_toDigits n
    rw [hd, List.map_cons, Option.some.injEq] at heq
    obtain ⟨hhead, htail⟩ := List.cons.inj heq
    have hd0 : d = '0' := Char.toNat_inj.1 (by have := toNat_of_isDigit hdigit; change d.toNat = 48; omega)
    rw [hzero hd0, Nat.toDigits_zero] at hd
    obtain ⟨-, rfl⟩ := List.cons.inj hd
    cases htail
  · rw [Option.map_some, hvalue]

theorem number?_digits (hs : ∀ c ∈ s, isPadding c = true) (hs' : ∀ c ∈ s', isPadding c = true) (k n : Nat) :
    number? (s ++ (List.replicate k '0' ++ Nat.toDigits 10 n) ++ s') = some (n : Int) := by
  have hdigits : ∀ c ∈ List.replicate k '0' ++ Nat.toDigits 10 n, c.isDigit = true := by
    intro c hc
    rcases List.mem_append.1 hc with hc | hc
    · rw [(List.mem_replicate.1 hc).2]; rfl
    · exact isDigit_of_mem_toDigits hc
  have hpoint : '.' ∉ Nat.toDigits 10 n := fun h => absurd (isDigit_of_mem_toDigits h) (by decide)
  have hplain : (dropLeadingZeros? (List.replicate k '0' ++ Nat.toDigits 10 n)).map dropZeroFraction =
      some (Nat.toDigits 10 n) := by
    rw [dropLeadingZeros?_digits, Option.map_some, dropZeroFraction_eq_self hpoint]
  have hremaining : remaining? (Nat.toDigits 10 n) = some (n : Int) := by
    obtain ⟨d, ds, hd, hdigit, -⟩ := exists_toDigits n
    unfold remaining?
    split
    · next heq => rw [heq] at hd; cases hd; cases hdigit
    · next heq => rw [heq] at hd; cases hd; cases hdigit
    · rw [digits?_toDigits]; rfl
  rw [number?, dropPadding_eq hs hs' fun c hc => isPadding_of_isDigit (hdigits c hc)]
  split
  · next heq => rw [heq] at hdigits; cases hdigits _ (List.mem_cons_self ..)
  · next heq => rw [heq] at hdigits; cases hdigits _ (List.mem_cons_self ..)
  · next heq => rw [heq] at hdigits; cases hdigits _ (List.mem_cons_self ..)
  · simp only [hplain, Option.bind_eq_bind, Option.bind_some, hremaining]

end

end Settings

end ControlLanguage
