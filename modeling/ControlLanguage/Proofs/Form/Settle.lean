import Mathlib.Data.List.Forall2
import ControlLanguage.Form.Command
import ControlLanguage.Form.Read
import ControlLanguage.Proofs.Nesting.Cutting

/-!
# What a value becomes when it is written and read

A value that fits the shape of its parameter settles when it is written:
each leaf becomes the literal that stands for it, blank instances go, and an
omitted part in front of others is marked. The settled value is what is read
from the written text again.
-/

namespace ControlLanguage

/-! ## Settled values -/

/-- A whole literal, or a text without white space, quotes, parentheses and slashes. -/
def isPart (t : Text) : Bool :=
  isQuoted t || t.all fun c => isOrdinary c && !isSpace c && c != '/'

namespace Leaf

def settle (l : Leaf) (t : Text) : Text :=
  if Text.isBlankText t then [] else literal t l.specialValues l.type

def Takes (l : Leaf) (t : Text) : Prop :=
  Text.isBlankText t = false → isPart (literal t l.specialValues l.type) = true

end Leaf

/-- The parts of a group with a mark for each omitted one in front of others. -/
def markOmitted : List Text → List Text
  | [] => []
  | t :: ts => (if t.isEmpty && ts.any (!·.isEmpty) then omittedPart else t) :: markOmitted ts

def Form.leafTexts : Form → List Text
  | leaf t => [t]
  | parts items => items.map flatText

def Form.instances : Form → List Form
  | leaf t => [leaf t]
  | parts items => items

namespace Shape

def leaves (parts : List Shape) : List Leaf :=
  parts.filterMap fun
    | simple l => some l
    | _ => none

def settle (v : Form) : Shape → Form
  | simple l => .leaf (l.settle v.flatText)
  | qual ls => .parts ((List.zipWith Leaf.settle ls v.leafTexts).map .leaf)
  | elem parts => .parts ((markOmitted (List.zipWith Leaf.settle (leaves parts) v.leafTexts)).map .leaf)

/-- A form with a text for each leaf of a simple value, a name or a flat group. Blank parts of a
name come last. -/
inductive Fits : Shape → Form → Prop
  | simple {l t} : l.Takes t → Fits (simple l) (.leaf t)
  | qual {ls ts} : List.Forall₂ Leaf.Takes ls ts →
      ts.Pairwise (fun s t => Text.isBlankText s = true → Text.isBlankText t = true) →
      Fits (qual ls) (.parts (ts.map .leaf))
  | elem {ls ts} : List.Forall₂ Leaf.Takes ls ts → Fits (elem (ls.map simple)) (.parts (ts.map .leaf))

end Shape

namespace Schema

def settle (s : Schema) (v : Form) : Form :=
  match s.shape with
  | none => v
  | some shape =>
    if s.isRepeated then .parts ((v.instances.filter (!·.isEmpty)).map (shape.settle ·)) else shape.settle v

/-- A form of the shape that the schema gives its parameter, for parameters other than repeated groups. A repeated
parameter may have blank instances of any shape. -/
inductive Fits (s : Schema) : Form → Prop
  | single {shape v} : s.shape = some shape → s.isRepeated = false → shape.Fits v → Fits s v
  | repeated {shape vs} : s.shape = some shape → s.isRepeated = true → shape.isElem = false →
      (∀ v ∈ vs, v.isEmpty = false → shape.Fits v) → Fits s (.parts vs)

end Schema

/-! ## Leaves -/

section
variable {t q : Text} {ts qs : List Text} {l : Leaf} {ls : List Leaf} {allowed : List Text} {declared : Text}

theorem literal_of_blank (h : Text.isBlankText t = true) : literal t allowed declared = [] := by
  have ht : Text.trim t = [] := List.isEmpty_iff.mp h
  have hexp : isExpression [] = false := by
    rw [isExpression, show Text.trim [] = [] from rfl, Token.ofText, show List.dropWhile isBlank [] = [] from rfl,
      Token.readFrom_nil]
    rfl
  rw [literal]
  simp only [hexp, ht, true_or, if_true, Bool.false_eq_true, if_false, ite_self]

theorem literal_ne_nil (h : Text.isBlankText t = false) : literal t allowed declared ≠ [] := by
  have ht : Text.trim t ≠ [] := by
    rintro ht; rw [Text.isBlankText, ht] at h; cases h
  have hquoted : standsBare allowed (typeName declared) ['\'', '\''] = true := by
    have : isQuoted ['\'', '\''] = true := by decide
    simp [standsBare, this]
  intro hl
  rw [literal] at hl
  split at hl
  · exact ht hl
  · next hbare =>
    split at hl
    · rw [hl] at ht; exact ht rfl
    · split at hl
      · next hq =>
        rcases hq with hq | hq
        · exact ht hq
        · rw [hq, hquoted, Bool.or_true] at hbare
          exact hbare rfl
      · split at hl
        · exact ht hl
        · split at hl <;> cases hl

namespace Leaf

theorem settle_eq (l : Leaf) (t : Text) : l.settle t = literal t l.specialValues l.type := by
  rw [settle]
  split
  · next h => rw [literal_of_blank h]
  · rfl

theorem settle_eq_nil_iff : l.settle t = [] ↔ Text.isBlankText t = true := by
  rw [settle]
  split
  · next h => exact iff_of_true rfl h
  · next h => exact iff_of_false (literal_ne_nil (Bool.eq_false_iff.mpr h)) h

theorem Takes.isPart (h : l.Takes t) (hn : l.settle t ≠ []) : isPart (l.settle t) = true := by
  rw [settle_eq]
  exact h (Bool.eq_false_iff.mpr (mt settle_eq_nil_iff.mpr hn))

end Leaf

def AreParts (qs : List Text) : Prop := ∀ q ∈ qs, q ≠ [] → isPart q = true

theorem length_settle (h : List.Forall₂ Leaf.Takes ls ts) :
    (List.zipWith Leaf.settle ls ts).length = ls.length := by
  rw [List.length_zipWith, h.length_eq, Nat.min_self]

theorem mem_settle (h : List.Forall₂ Leaf.Takes ls ts) (hq : q ∈ List.zipWith Leaf.settle ls ts) :
    ∃ l : Leaf, ∃ t ∈ ts, l.Takes t ∧ q = l.settle t := by
  induction h with
  | nil => cases hq
  | @cons l t _ ts ht _ ih =>
    rcases List.mem_cons.mp hq with rfl | hq
    · exact ⟨l, t, List.mem_cons_self .., ht, rfl⟩
    · obtain ⟨l, t, hmem, ht, he⟩ := ih hq
      exact ⟨l, t, List.mem_cons_of_mem _ hmem, ht, he⟩

theorem areParts_settle (h : List.Forall₂ Leaf.Takes ls ts) : AreParts (List.zipWith Leaf.settle ls ts) := by
  intro q hq hne
  obtain ⟨l, t, -, ht, rfl⟩ := mem_settle h hq
  exact ht.isPart hne

theorem exists_settle_ne_nil (h : List.Forall₂ Leaf.Takes ls ts) (hn : ∃ t ∈ ts, Text.isBlankText t = false) :
    ∃ q ∈ List.zipWith Leaf.settle ls ts, q ≠ [] := by
  induction h with
  | nil =>
    obtain ⟨t, ht, -⟩ := hn
    cases ht
  | @cons l t _ _ _ _ ih =>
    obtain ⟨u, hu, hb⟩ := hn
    rw [List.zipWith_cons_cons]
    rcases List.mem_cons.mp hu with rfl | hu
    · refine ⟨_, List.mem_cons_self .., fun he => ?_⟩
      rw [Leaf.settle_eq_nil_iff.mp he] at hb; cases hb
    · obtain ⟨q, hq, hne⟩ := ih ⟨u, hu, hb⟩
      exact ⟨q, List.mem_cons_of_mem _ hq, hne⟩

theorem pairwise_settle (h : List.Forall₂ Leaf.Takes ls ts)
    (hb : ts.Pairwise fun s t => Text.isBlankText s = true → Text.isBlankText t = true) :
    (List.zipWith Leaf.settle ls ts).Pairwise fun p q => p = [] → q = [] := by
  induction h with
  | nil => exact .nil
  | cons _ hls ih =>
    obtain ⟨ht, hts⟩ := List.pairwise_cons.mp hb
    refine List.pairwise_cons.mpr ⟨fun q hq he => ?_, ih hts⟩
    obtain ⟨l', u, hu, -, rfl⟩ := mem_settle hls hq
    exact Leaf.settle_eq_nil_iff.mpr (ht u hu (Leaf.settle_eq_nil_iff.mp he))

end

/-! ## Parts -/

section
variable {q v w t : Text} {qs ws : List Text}

theorem isPart_cases (h : isPart q = true) :
    isQuoted q = true ∨ ∀ c ∈ q, isOrdinary c = true ∧ isSpace c = false ∧ c ≠ '/' := by
  rw [isPart, Bool.or_eq_true, List.all_eq_true] at h
  refine h.imp_right fun h c hc => ?_
  have := h c hc
  simp only [Bool.and_eq_true, Bool.not_eq_true', bne_iff_ne] at this
  exact ⟨this.1.1, this.1.2, this.2⟩

theorem isField_of_isPart (h : isPart q = true) : IsField '/' q := by
  rcases isPart_cases h with h | h
  · exact .inl h
  · exact .inr ⟨fun c hc => (h c hc).1, fun hc => (h _ hc).2.2 rfl⟩

theorem isWord_of_isQuoted (h : isQuoted q = true) : IsWord q := by
  obtain ⟨u, rfl, hhead, -⟩ := isQuoted_split h
  obtain ⟨u, rfl⟩ := List.head?_eq_some_iff.mp hhead
  exact ⟨.of_literal h, ⟨_, _, rfl, by decide, by decide⟩, ⟨_, _, rfl, by decide⟩⟩

theorem isWord_of_isPart (h : isPart q = true) (hn : q ≠ []) : IsWord q := by
  rcases isPart_cases h with h | h
  · exact isWord_of_isQuoted h
  · have hclose : Closes q := (tight_of_not_isSpace hn fun c hc => (h c hc).2.1).closes
    obtain ⟨c, cs, rfl⟩ := List.exists_cons_of_ne_nil hn
    have hc := h c (List.mem_cons_self ..)
    exact ⟨.of_ordinary fun c hc => (h c hc).1, ⟨c, cs, rfl, hc.2⟩, hclose⟩

theorem IsWord.slash (hw : IsWord w) (hv : IsWord v) : IsWord (w ++ '/' :: v) := by
  obtain ⟨c, cs, rfl, hc⟩ := hw.opens
  refine ⟨hw.unbroken.append (.char (by decide) hv.unbroken) (by simp), ⟨c, cs ++ '/' :: v, rfl, hc⟩, ?_⟩
  have := hv.closes.append (c :: cs ++ ['/'])
  rwa [List.append_assoc] at this

theorem isWord_intercalate (hn : ws ≠ []) (h : ∀ w ∈ ws, IsWord w) : IsWord (['/'].intercalate ws) := by
  induction ws with
  | nil => exact absurd rfl hn
  | cons w ws ih =>
    obtain ⟨hw, hws⟩ := List.forall_mem_cons.mp h
    cases ws with
    | nil => rwa [List.intercalate_singleton]
    | cons v vs =>
      rw [intercalate_cons_cons]
      exact hw.slash (ih (by simp) hws)

/-! ## Names -/

theorem mem_filter_nonempty : q ∈ qs.filter (!·.isEmpty) ↔ q ∈ qs ∧ q ≠ [] := by
  rw [List.mem_filter, Bool.not_eq_true', List.isEmpty_eq_false_iff]

theorem filter_append_empty (h : qs.Pairwise fun p q => p = [] → q = []) :
    qs.filter (!·.isEmpty) ++ List.replicate (qs.length - (qs.filter (!·.isEmpty)).length) [] = qs := by
  induction qs with
  | nil => rfl
  | cons q qs ih =>
    obtain ⟨hq, hqs⟩ := List.pairwise_cons.mp h
    by_cases he : q = []
    · have hall : (q :: qs).filter (!·.isEmpty) = [] := by
        refine List.filter_eq_nil_iff.mpr fun p hp => ?_
        rcases List.mem_cons.mp hp with rfl | hp
        · simp [he]
        · simp [hq p hp he]
      rw [hall, List.nil_append, List.length_nil, Nat.sub_zero, eq_comm, List.eq_replicate_iff]
      refine ⟨rfl, fun p hp => ?_⟩
      rcases List.mem_cons.mp hp with rfl | hp
      · exact he
      · exact hq p hp he
    · rw [List.filter_cons_of_pos (by simpa using he), List.length_cons, List.length_cons, Nat.add_sub_add_right,
        List.cons_append, ih hqs]

theorem isWord_joinQualified (h : AreParts qs) (hn : ∃ q ∈ qs, q ≠ []) : IsWord (joinQualified qs) := by
  refine isWord_intercalate ?_ fun w hw => ?_
  · obtain ⟨q, hq⟩ := hn
    exact List.ne_nil_of_mem (List.mem_reverse.mpr (mem_filter_nonempty.mpr hq))
  · obtain ⟨hmem, hne⟩ := mem_filter_nonempty.mp (List.mem_reverse.mp hw)
    exact isWord_of_isPart (h w hmem hne) hne

theorem qualifiedParts_joinQualified (h : AreParts qs) (hn : ∃ q ∈ qs, q ≠ [])
    (hp : qs.Pairwise fun p q => p = [] → q = []) (ht : dropEnclosing t = joinQualified qs) :
    qualifiedParts qs.length t = qs := by
  have hne : joinQualified qs ≠ [] := (isWord_joinQualified h hn).ne_nil
  have hpart : ∀ q ∈ (qs.filter (!·.isEmpty)).reverse, isPart q = true ∧ q ≠ [] := by
    intro q hq
    obtain ⟨hmem, hne⟩ := mem_filter_nonempty.mp (List.mem_reverse.mp hq)
    exact ⟨h q hmem hne, hne⟩
  have hfields : fields (some '/') (joinQualified qs) = (qs.filter (!·.isEmpty)).reverse := by
    refine fields_intercalate ?_ (fun _ => rfl) fun q hq => ?_
    · obtain ⟨q, hq⟩ := hn
      exact List.ne_nil_of_mem (List.mem_reverse.mpr (mem_filter_nonempty.mpr hq))
    · obtain ⟨hq, hne⟩ := hpart q hq
      exact ⟨isField_of_isPart hq, (isWord_of_isPart hq hne).trim⟩
  have hall : (qs.filter (!·.isEmpty)).reverse.filter (!·.isEmpty) = (qs.filter (!·.isEmpty)).reverse := by
    rw [List.filter_eq_self]
    intro q hq
    simpa using (hpart q hq).2
  have hlen : ¬qs.length < (qs.filter (!·.isEmpty)).reverse.length := by
    rw [List.length_reverse]
    exact Nat.not_lt.mpr (List.length_filter_le ..)
  rw [qualifiedParts]
  simp only [ht, hfields, hall]
  rw [if_neg hne, if_neg hlen, List.reverse_reverse, List.length_reverse, filter_append_empty hp]

/-! ## Groups -/

def shownPart (q : Text) : Text := if q.isEmpty then omittedPart else q

theorem markOmitted_replicate (k : Nat) : markOmitted (List.replicate k []) = List.replicate k [] := by
  induction k with
  | zero => rfl
  | succ k ih =>
    have hrest : (List.replicate k ([] : Text)).any (!·.isEmpty) = false := by
      rw [List.any_eq_false]
      intro q hq
      rw [List.eq_of_mem_replicate hq]; decide
    rw [List.replicate_succ, markOmitted, hrest, Bool.and_false, if_neg Bool.false_ne_true, ih]

theorem markOmitted_append {k : Nat} (hl : qs.getLast? ≠ some []) :
    markOmitted (qs ++ List.replicate k []) = qs.map shownPart ++ List.replicate k [] := by
  induction qs with
  | nil => exact markOmitted_replicate k
  | cons q qs ih =>
    have hrest : qs.getLast? ≠ some [] := by
      cases qs with
      | nil => simp
      | cons p ps => rwa [List.getLast?_cons_cons] at hl
    rw [List.cons_append, markOmitted, ih hrest, List.map_cons, List.cons_append, shownPart]
    congr 1
    by_cases he : q = []
    · -- an omitted part is not the last one, and the last one is not empty
      have hany : (qs ++ List.replicate k ([] : Text)).any (!·.isEmpty) = true := by
        rcases List.eq_nil_or_concat qs with rfl | ⟨ps, p, rfl⟩
        · exact absurd (congrArg some he) hl
        · rw [List.concat_eq_append, List.getLast?_concat] at hrest
          refine List.any_eq_true.mpr ⟨p, by simp, ?_⟩
          simpa using fun h => hrest (congrArg some h)
      rw [hany, Bool.and_true]
    · rw [List.isEmpty_eq_false_iff.mpr he]; rfl

theorem exists_kept (qs : List Text) : ∃ kept k, (qs.reverse.dropWhile (·.isEmpty)).reverse = kept ∧
    qs = kept ++ List.replicate k [] ∧ kept.getLast? ≠ some [] := by
  have hempty : (qs.reverse.takeWhile (·.isEmpty)).reverse =
      List.replicate (qs.reverse.takeWhile (·.isEmpty)).length [] := by
    apply List.eq_replicate_iff.mpr
    constructor
    · exact List.length_reverse
    · intro q hq
      exact List.isEmpty_iff.mp (List.all_eq_true.mp List.all_takeWhile q (List.mem_reverse.mp hq))
  refine ⟨_, (qs.reverse.takeWhile (·.isEmpty)).length, rfl, ?_, ?_⟩
  · rw [← hempty, ← List.reverse_append, List.takeWhile_append_dropWhile, List.reverse_reverse]
  · rw [List.getLast?_reverse]
    intro he
    have := List.head?_dropWhile_not (·.isEmpty) qs.reverse
    rw [he] at this
    cases this

theorem fitTexts_shownPart (hn : ∃ q ∈ qs, q ≠ []) : ∃ ws, ws ≠ [] ∧ (∀ w ∈ ws, ∃ q ∈ qs, w = shownPart q) ∧
    joinParts qs = Text.unwords ws ∧ fitTexts qs.length ws = markOmitted qs := by
  obtain ⟨kept, k, hkept, hqs, hlast⟩ := exists_kept qs
  have hne : kept ≠ [] := by
    intro he
    obtain ⟨q, hq, hne⟩ := hn
    rw [hqs, he, List.nil_append] at hq
    exact hne (List.eq_of_mem_replicate hq)
  refine ⟨kept.map shownPart, by simpa using hne, fun w hw => ?_, ?_, ?_⟩
  · obtain ⟨q, hq, rfl⟩ := List.mem_map.mp hw
    exact ⟨q, by rw [hqs]; exact List.mem_append_left _ hq, rfl⟩
  · rw [joinParts, hkept]; rfl
  · have hlen : qs.length = kept.length + k := by
      rw [congrArg List.length hqs, List.length_append, List.length_replicate]
    rw [fitTexts, List.length_map, hlen, if_neg (by omega), Nat.add_sub_cancel_left, hqs, markOmitted_append hlast]

end

end ControlLanguage
