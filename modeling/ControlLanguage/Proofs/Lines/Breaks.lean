import ControlLanguage.Lines.Placed
import ControlLanguage.Proofs.Token.Boundary

/-!
# Break points

The break points of a unit stand in order: those of one literal do, and a
literal ends before the next one begins.
-/

namespace ControlLanguage

section
variable {length low : Nat} {start : Option Nat} {ms : List Mark}

theorem le_of_mem_literalSpans {span : Nat × Nat} (hs : ∀ b ∈ start, low ≤ b) (hm : ∀ m ∈ ms, low ≤ m.index)
    (h : span ∈ literalSpans length start ms) : low ≤ span.1 := by
  induction ms generalizing start with
  | nil =>
    obtain ⟨b, hb, rfl⟩ := List.mem_map.mp h
    exact hs b (by simpa using hb)
  | cons m ms ih =>
    obtain ⟨hlow, hm⟩ := List.forall_mem_cons.mp hm
    unfold literalSpans at h
    split at h
    · exact ih (by simpa using hlow) hm h
    · split at h
      · rcases List.mem_cons.mp h with rfl | h
        · exact hs _ rfl
        · exact ih (by simp) hm h
      · exact ih hs hm h

theorem pairwise_literalSpans (h : ms.Pairwise fun l m => l.index < m.index) :
    (literalSpans length start ms).Pairwise fun s t => s.2 ≤ t.1 := by
  induction ms generalizing start with
  | nil => cases start <;> simp [literalSpans]
  | cons m ms ih =>
    obtain ⟨hm, hms⟩ := List.pairwise_cons.mp h
    unfold literalSpans
    split
    · exact ih hms
    · split
      · refine List.pairwise_cons.mpr ⟨fun span hspan => ?_, ih hms⟩
        exact le_of_mem_literalSpans (by simp) (fun l hl => Nat.le_of_lt (hm l hl)) hspan
      · exact ih hms

end

theorem pairwise_breakPoints (threshold : Int) (unit : Text) :
    (0 :: breakPoints threshold unit).Pairwise (· < ·) := by
  have hspan : ∀ s : Nat × Nat, ∀ p ∈ (if (s.2 : Int) - s.1 + 1 < threshold then []
      else (List.range' (s.1 + 2) (s.2 - (s.1 + 2))).filter fun p =>
        unit[p - 1]? == some ' ' && unit[p]? != some ' '), s.1 + 2 ≤ p ∧ p < s.2 := by
    intro s p hp
    split at hp
    · cases hp
    · have := List.mem_range'_1.mp (List.mem_filter.mp hp).1
      omega
  refine List.pairwise_cons.mpr ⟨fun p hp => ?_, ?_⟩
  · obtain ⟨s, -, hp⟩ := List.mem_flatMap.mp hp
    have := hspan s p hp
    omega
  · refine List.pairwise_flatMap.mpr ⟨fun s _ => ?_, ?_⟩
    · dsimp only
      split
      · exact List.Pairwise.nil
      · exact List.Pairwise.filter _ List.pairwise_lt_range'
    · refine (pairwise_literalSpans (pairwise_index_marksFrom ..)).imp fun hle p hp q hq => ?_
      have := hspan _ p hp
      have := hspan _ q hq
      omega

end ControlLanguage
