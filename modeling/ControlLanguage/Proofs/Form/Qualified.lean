import ControlLanguage.Proofs.Form.Names

/-!
# Parts of qualified names

Nothing of a qualified name is lost when it is taken apart: what stands
between its slashes is in its parts, the last segment first, and segments in
front for which there is no part of their own stay together. Plain parts that
are written as a name are read from it in their places.
-/

namespace ControlLanguage

/-- What stands between the slashes of a name outside literals and parentheses. -/
def nameSegments (t : Text) : List Text := (fields (some '/') (dropEnclosing t)).filter (!·.isEmpty)

/-- The segments of a name with `n` parts: if there are more of them, the first ones are one. -/
def joinLeading (n : Nat) (segments : List Text) : List Text :=
  if n < segments.length then
    ['/'].intercalate (segments.take (segments.length - (n - 1))) :: segments.drop (segments.length - (n - 1))
  else segments

def padded (n : Nat) (parts : List Text) : List Text := parts ++ List.replicate (n - parts.length) []

section
variable {n : Nat} {t : Text} {ps ss : List Text} {ls : List Leaf} {keyword : Text}

/-! ## Segments that are joined -/

theorem intercalate_append_intercalate (hn : ss ≠ []) (ps : List Text) :
    ['/'].intercalate (['/'].intercalate ss :: ps) = ['/'].intercalate (ss ++ ps) := by
  induction ss with
  | nil => exact absurd rfl hn
  | cons s ss ih =>
    cases ss with
    | nil => rw [List.intercalate_singleton]; rfl
    | cons u us =>
      have htail := ih (by simp)
      rw [intercalate_cons_cons, List.cons_append, List.cons_append, intercalate_cons_cons, ← List.cons_append,
        ← htail]
      cases ps with
      | nil => rw [List.intercalate_singleton, List.intercalate_singleton]
      | cons => rw [intercalate_cons_cons, intercalate_cons_cons, List.append_assoc]; rfl

theorem ne_nil_of_mem_nameSegments : ∀ s ∈ nameSegments t, s ≠ [] := fun _ hs => (mem_filter_nonempty.mp hs).2

theorem take_leading_ne_nil (h : n < ss.length) : ss.take (ss.length - (n - 1)) ≠ [] := by
  rw [ne_eq, List.take_eq_nil_iff, ← List.length_eq_zero_iff]
  omega

theorem length_joinLeading (hn : 1 ≤ n) (ss : List Text) : (joinLeading n ss).length = min n ss.length := by
  unfold joinLeading
  split
  · rw [List.length_cons, List.length_drop]; omega
  · omega

theorem intercalate_joinLeading (n : Nat) (ss : List Text) :
    ['/'].intercalate (joinLeading n ss) = ['/'].intercalate ss := by
  unfold joinLeading
  split
  · next hlen => rw [intercalate_append_intercalate (take_leading_ne_nil hlen), List.take_append_drop]
  · rfl

theorem ne_nil_of_mem_joinLeading (h : ∀ s ∈ ss, s ≠ []) : ∀ s ∈ joinLeading n ss, s ≠ [] := by
  unfold joinLeading
  split
  · next hlen =>
    obtain ⟨s, us, hs⟩ := List.exists_cons_of_ne_nil (take_leading_ne_nil hlen)
    have hne : s ≠ [] := h s (List.mem_of_mem_take (by rw [hs]; exact List.mem_cons_self ..))
    rw [List.forall_mem_cons, hs]
    exact ⟨intercalate_ne_nil hne '/' us, fun s hs => h s (List.mem_of_mem_drop hs)⟩
  · exact h

/-! ## The parts of a text -/

theorem qualifiedParts_eq (n : Nat) (t : Text) :
    qualifiedParts n t = padded n (joinLeading n (nameSegments t)).reverse := by
  rw [qualifiedParts, padded, List.length_reverse]
  by_cases ht : dropEnclosing t = []
  · have hnone : nameSegments t = [] := by rw [nameSegments, ht]; rfl
    rw [hnone]
    simp [ht, joinLeading]
  · simp only [if_neg ht]
    rfl

theorem filter_padded (h : ∀ p ∈ ps, p ≠ []) : (padded n ps).filter (!·.isEmpty) = ps := by
  have hps : ps.filter (!·.isEmpty) = ps := by
    rw [List.filter_eq_self]
    intro p hp
    simpa using h p hp
  rw [padded, List.filter_append, List.filter_replicate, hps]
  exact List.append_nil ps

theorem pairwise_padded (h : ∀ p ∈ ps, p ≠ []) : (padded n ps).Pairwise fun p q => p = [] → q = [] := by
  rw [padded, List.pairwise_append]
  refine ⟨?_, ?_, ?_⟩
  · exact List.pairwise_of_forall_mem_list fun p hp q _ he => absurd he (h p hp)
  · simp [List.pairwise_replicate]
  · intro p hp q _ he
    exact absurd he (h p hp)

theorem length_padded (h : ps.length ≤ n) : (padded n ps).length = n := by
  rw [padded, List.length_append, List.length_replicate]; omega

theorem joinQualified_padded (h : ∀ p ∈ ps, p ≠ []) :
    joinQualified (padded n ps) = ['/'].intercalate ps.reverse := by
  rw [joinQualified, filter_padded h]

/-! ## Plain parts -/

theorem mem_padded {q : Text} (hq : q ∈ padded n ps) (hne : q ≠ []) : q ∈ ps := by
  rw [padded, List.mem_append] at hq
  exact hq.resolve_right fun hq => hne (List.eq_of_mem_replicate hq)

theorem value_write_padded (hl : ls.length = n) (hk : ps.length ≤ n) (h : ∀ p ∈ ps, isPlain p = true) :
    ((Shape.qual ls).write keyword (.parts ((padded n ps).map .leaf))).value = joinQualified (padded n ps) := by
  have hlen : (padded n ps).length = ls.length := by rw [length_padded hk, hl]
  have hplain : ∀ q ∈ padded n ps, Text.isBlankText q = true ∨ isPlain q = true := by
    intro q hq
    by_cases hne : q = []
    · left; rw [hne]; rfl
    · exact .inr (h q (mem_padded hq hne))
  have hsame : (padded n ps).map unlessBlank = padded n ps := by
    rw [padded, List.map_append, List.map_replicate, map_unlessBlank h]; rfl
  rw [Shape.value_write_qual (Leaf.forall₂_takes hlen hplain), Leaf.zipWith_settle hlen hplain, hsame]

theorem qualifiedParts_padded (hk : ps.length ≤ n) (h : ∀ p ∈ ps, isPlain p = true) :
    qualifiedParts n (joinQualified (padded n ps)) = padded n ps := by
  have hne : ∀ p ∈ ps, p ≠ [] := fun p hp => ne_nil_of_isPlain (h p hp)
  cases ps with
  | nil =>
    have hblank : joinQualified (padded n []) = [] := joinQualified_padded (by simp)
    rw [hblank, qualifiedParts_eq]; rfl
  | cons p ps =>
    have hparts : AreParts (padded n (p :: ps)) := fun q hq hq₀ => isPart_of_isPlain (h q (mem_padded hq hq₀))
    have hsome : ∃ q ∈ padded n (p :: ps), q ≠ [] :=
      ⟨p, List.mem_append_left _ (List.mem_cons_self ..), hne p (by simp)⟩
    have := qualifiedParts_joinQualified hparts hsome (pairwise_padded hne)
      (dropEnclosing_word (isWord_joinQualified hparts hsome))
    rwa [length_padded hk] at this

/-- A text has the parts of a name that its parameter has, with the empty ones behind the others, and together they
are all that stands between its slashes. What is written for plain parts has these parts. -/
theorem qualifiedParts_lossless (hn : 1 ≤ n) :
    (∀ t, (qualifiedParts n t).length = n ∧ ((qualifiedParts n t).Pairwise fun p q => p = [] → q = []) ∧
      joinQualified (qualifiedParts n t) = ['/'].intercalate (nameSegments t)) ∧
    ∀ (ls : List Leaf) (ps : List Text) (keyword : Text), ls.length = n → ps.length ≤ n →
    (∀ p ∈ ps, isPlain p = true) →
      qualifiedParts n ((Shape.qual ls).write keyword (.parts ((padded n ps).map .leaf))).value = padded n ps := by
  constructor
  · intro t
    have hne : ∀ p ∈ (joinLeading n (nameSegments t)).reverse, p ≠ [] := fun p hp =>
      ne_nil_of_mem_joinLeading ne_nil_of_mem_nameSegments p (List.mem_reverse.mp hp)
    rw [qualifiedParts_eq]
    refine ⟨length_padded ?_, pairwise_padded hne, ?_⟩
    · rw [List.length_reverse, length_joinLeading hn]
      exact Nat.min_le_left ..
    · rw [joinQualified_padded hne, List.reverse_reverse, intercalate_joinLeading]
  · intro ls ps keyword hl hk h
    rw [value_write_padded hl hk h, qualifiedParts_padded hk h]

theorem qualifiedParts_lossless_library :
    joinQualified (qualifiedParts 2 "(A//B/'C/D')".toList) = "A/B/'C/D'".toList ∧
    qualifiedParts 2 ((Shape.qual [⟨"NAME".toList, []⟩, ⟨"NAME".toList, []⟩]).write []
      (.parts [.leaf "FILE".toList, .leaf "*LIBL".toList])).value = ["FILE".toList, "*LIBL".toList] := by
  obtain ⟨hsplit, hread⟩ := qualifiedParts_lossless (n := 2) (by decide)
  refine ⟨(hsplit "(A//B/'C/D')".toList).2.2.trans (by decide), ?_⟩
  exact hread _ ["FILE".toList, "*LIBL".toList] [] rfl (by decide) (by decide)

end

end ControlLanguage
