import ControlLanguage.Command.Positional
import ControlLanguage.Proofs.Spelling.Command

/-!
# The order of positional values

A command is read with its positional values in front of its keywords. When
keywords are put for them, a value that keeps its placeholder name may come to
stand behind a keyword: `positionalsFirst_assignKeywords` says when, and how a
call without such a value is written.
-/

namespace ControlLanguage

section
variable {ν : Type}

/-- No positional binding stands behind a keyword. -/
def PositionalsFirst (bs : List (Binding ν)) : Prop :=
  bs.Pairwise fun a b => b.isPositional = true → a.isPositional = true

theorem positionalsFirst_of_keywords {bs : List (Binding ν)} (h : ∀ b ∈ bs, b.isPositional = false) :
    PositionalsFirst bs :=
  List.pairwise_iff_forall_sublist.mpr fun hs hb =>
    absurd hb (Bool.eq_false_iff.mp (h _ (hs.subset (by simp))))

theorem positionalsFirst_append_keywords {ps bs : List (Binding ν)} (h : ∀ b ∈ bs, b.isPositional = false) :
    PositionalsFirst (ps ++ bs) ↔ PositionalsFirst ps := by
  rw [PositionalsFirst, List.pairwise_append]
  refine ⟨fun hs => hs.1, fun hs => ⟨hs, positionalsFirst_of_keywords h, fun a _ b hb hpos => ?_⟩⟩
  exact absurd hpos (Bool.eq_false_iff.mp (h b hb))

theorem PositionalsFirst.eq_append {bs : List (Binding ν)} (h : PositionalsFirst bs) :
    bs = bs.filter (·.isPositional) ++ bs.filter (!·.isPositional) := by
  induction bs with
  | nil => rfl
  | cons b bs ih =>
    obtain ⟨hb, hbs⟩ := List.pairwise_cons.mp h
    by_cases hp : b.isPositional = true
    · rw [List.filter_cons_of_pos hp, List.filter_cons_of_neg (by simp [hp]), List.cons_append, ← ih hbs]
    · have hnone : bs.filter (·.isPositional) = [] := List.filter_eq_nil_iff.mpr fun c hc hcp => hp (hb c hc hcp)
      have hall : bs.filter (!·.isPositional) = bs := by
        rw [List.filter_eq_self]
        intro c hc
        simpa using fun hcp => hp (hb c hc hcp)
      rw [List.filter_cons_of_neg hp, List.filter_cons_of_pos (by simpa using hp), hnone, hall, List.nil_append]

end

/-! ## Commands that have been read -/

theorem p_notMem_upperChar (c : Char) : 'p' ∉ upperChar c := by
  intro h
  exact absurd (upperChar_of_mem_upperChar h) (by decide)

theorem not_isPlaceholder_upper (t : Text) : isPlaceholder t.upper = false := by
  rw [← Bool.not_eq_true, isPlaceholder, List.isPrefixOf_iff_prefix]
  intro h
  obtain ⟨c, -, hc⟩ := List.mem_flatMap.mp (h.subset (show 'p' ∈ placeholderStart by decide))
  exact p_notMem_upperChar c hc

namespace Value

theorem BindingsOf.isPositional_of_seen {n : Nat} {ts : List Token} {bs : List (Binding Value)}
    (h : BindingsOf true n ts bs) : ∀ b ∈ bs, b.isPositional = false := by
  generalize hseen : true = seen at h
  induction h with
  | nil => simp
  | space _ _ ih => exact ih hseen
  | groups _ _ _ _ _ _ _ ih => exact List.forall_mem_cons.mpr ⟨not_isPlaceholder_upper _, ih rfl⟩
  | call _ _ _ _ _ _ _ _ ih => exact List.forall_mem_cons.mpr ⟨not_isPlaceholder_upper _, ih rfl⟩
  | positional => cases hseen

theorem BindingsOf.positionalsFirst {seen : Bool} {n : Nat} {ts : List Token} {bs : List (Binding Value)}
    (h : BindingsOf seen n ts bs) : PositionalsFirst bs := by
  induction h with
  | nil => exact .nil
  | space _ _ ih => exact ih
  | groups _ _ _ _ _ _ hrest _ =>
    exact positionalsFirst_of_keywords (List.forall_mem_cons.mpr
      ⟨not_isPlaceholder_upper _, hrest.isPositional_of_seen⟩)
  | call _ _ _ _ _ _ hrest _ _ =>
    exact positionalsFirst_of_keywords (List.forall_mem_cons.mpr
      ⟨not_isPlaceholder_upper _, hrest.isPositional_of_seen⟩)
  | positional _ _ _ _ ih => exact .cons (fun _ _ _ => isPlaceholder_placeholder _) ih

end Value

theorem positionalsFirst_of_parse {text : Text} {c : Command} (h : Command.parse text = .ok c) :
    PositionalsFirst c.bindings := by
  obtain ⟨_, _, _, _, m, _, _, hread, _, hbindings⟩ := exists_readFrom h
  rw [hbindings]
  exact hread.bindings.positionalsFirst

/-! ## Keywords for positional values -/

def Binding.rename {ν : Type} (b : Binding ν) : Option Text → Binding ν
  | some k => ⟨k, b.value⟩
  | none => b

/-- The keyword at a place in upper case, unless it is one of those in `taken`. -/
def freeKeyword? (taken keywords : List Text) (i : Nat) : Option Text :=
  (keywords[i]?.map Text.upper).filter (!taken.contains ·)

namespace Call

section
variable {ν : Type} {c : Call ν} {taken keywords : List Text} {ps bs : List (Binding ν)}

theorem assign_keywords (h : ∀ b ∈ bs, b.isPositional = false) : assign taken keywords bs = bs := by
  induction bs with
  | nil => simp only [assign]
  | cons b bs ih =>
    obtain ⟨hb, hbs⟩ := List.forall_mem_cons.mp h
    simp only [assign, hb, Bool.false_eq_true, if_false, ih hbs]

theorem assign_positionals (hp : ∀ b ∈ ps, b.isPositional = true) (hb : ∀ b ∈ bs, b.isPositional = false) :
    assign taken keywords (ps ++ bs) = (ps.mapIdx fun i b => b.rename (freeKeyword? taken keywords i)) ++ bs := by
  induction ps generalizing keywords with
  | nil => exact assign_keywords hb
  | cons p ps ih =>
    obtain ⟨hp, hps⟩ := List.forall_mem_cons.mp hp
    rw [List.cons_append, List.mapIdx_cons, List.cons_append]
    cases keywords with
    | nil =>
      simp only [assign, hp, if_true, ih hps]
      rfl
    | cons k ks =>
      simp only [assign, hp, if_true, ih hps]
      congr 1
      simp only [freeKeyword?, List.getElem?_cons_zero, Option.map_some, Option.filter_some]
      cases taken.contains k.upper <;> rfl

/-- The keyword that is put for the positional value at a place, counted from 0. -/
def keywordFor? (c : Call ν) (keywords : List Text) (limit : Option Int) (i : Nat) : Option Text :=
  if limit.all ((i : Int) < ·) then freeKeyword? (c.keywords.map Text.upper) keywords i else none

theorem freeKeyword?_take (n : Int) (i : Nat) :
    freeKeyword? taken (keywords.take n.toNat) i =
      if (i : Int) < n then freeKeyword? taken keywords i else none := by
  rw [freeKeyword?, List.getElem?_take]
  by_cases h : (i : Int) < n
  · rw [if_pos h, if_pos (by omega), freeKeyword?]
  · rw [if_neg h, if_neg (by omega)]
    rfl

theorem bindings_assignKeywords (h : PositionalsFirst c.bindings) (keywords : List Text) (limit : Option Int) :
    (c.assignKeywords keywords limit).bindings =
      (c.positionals.mapIdx fun i b => b.rename (c.keywordFor? keywords limit i)) ++
        c.bindings.filter (!·.isPositional) := by
  have hassign : ∀ given, assign (c.keywords.map Text.upper) given c.bindings =
      (c.positionals.mapIdx fun i b => b.rename (freeKeyword? (c.keywords.map Text.upper) given i)) ++
        c.bindings.filter (!·.isPositional) := by
    intro given
    conv_lhs => rw [h.eq_append]
    exact assign_positionals (fun b hb => (List.mem_filter.mp hb).2) fun b hb => by
      simpa using (List.mem_filter.mp hb).2
  cases limit with
  | none => exact hassign keywords
  | some n =>
    refine (hassign (keywords.take n.toNat)).trans ?_
    simp only [freeKeyword?_take, keywordFor?, Option.all_some, decide_eq_true_eq]

theorem isPositional_rename_keywordFor? {b : Binding ν} (hb : b.isPositional = true) (keywords : List Text)
    (limit : Option Int) (i : Nat) :
    (b.rename (c.keywordFor? keywords limit i)).isPositional = (c.keywordFor? keywords limit i).isNone := by
  cases hk : c.keywordFor? keywords limit i with
  | none => exact hb
  | some k =>
    rw [keywordFor?] at hk
    split at hk
    · obtain ⟨hmap, -⟩ := Option.filter_eq_some_iff.mp hk
      obtain ⟨t, -, rfl⟩ := Option.map_eq_some_iff.mp hmap
      exact not_isPlaceholder_upper t
    · cases hk

theorem positionalsFirst_assignKeywords_iff (h : PositionalsFirst c.bindings) (keywords : List Text)
    (limit : Option Int) : PositionalsFirst (c.assignKeywords keywords limit).bindings ↔
      ∀ i j, i < j → j < c.positionals.length → c.keywordFor? keywords limit j = none →
        c.keywordFor? keywords limit i = none := by
  have hpos : ∀ (i : Nat) (hi : i < c.positionals.length),
      (c.positionals[i].rename (c.keywordFor? keywords limit i)).isPositional = true ↔
        c.keywordFor? keywords limit i = none := by
    intro i hi
    rw [isPositional_rename_keywordFor? (List.mem_filter.mp (List.getElem_mem hi)).2, Option.isNone_iff_eq_none]
  rw [bindings_assignKeywords h,
    positionalsFirst_append_keywords fun b hb => by simpa using (List.mem_filter.mp hb).2,
    PositionalsFirst, List.pairwise_iff_getElem]
  simp only [List.length_mapIdx, List.getElem_mapIdx]
  constructor
  · intro hs i j hlt hj hnone
    exact (hpos i (by omega)).mp (hs i j (by omega) hj hlt ((hpos j hj).mpr hnone))
  · intro hs i j hi hj hlt hjpos
    exact (hpos i hi).mpr (hs i j hlt hj ((hpos j hj).mp hjpos))

end

theorem text_of_positionalsFirst {c : Command} (h : PositionalsFirst c.bindings) :
    c.text = (part? c.label).elim [] (· ++ ": ".toList) ++
      Text.unwords (c.name :: c.positionals.map (·.value.text) ++
        (c.bindings.filter (!·.isPositional)).map fun b => b.name ++ '(' :: b.value.text ++ [')']) := by
  have hpos : c.positionals.map Binding.text = c.positionals.map (·.value.text) :=
    List.map_congr_left fun b hb => if_pos (List.mem_filter.mp hb).2
  have hkey : (c.bindings.filter (!·.isPositional)).map Binding.text =
      (c.bindings.filter (!·.isPositional)).map fun b => b.name ++ '(' :: b.value.text ++ [')'] :=
    List.map_congr_left fun b hb => if_neg (by simpa [Binding.isPositional] using (List.mem_filter.mp hb).2)
  have hbody : c.body = Text.unwords (c.name :: c.positionals.map (·.value.text) ++
      (c.bindings.filter (!·.isPositional)).map fun b => b.name ++ '(' :: b.value.text ++ [')']) := by
    rw [body]
    conv_lhs => rw [h.eq_append]
    rw [List.map_append, hkey, List.cons_append, ← hpos]
    rfl
  rw [text, hbody]
  cases part? c.label <;> rfl

/-- The positional values of a command come first. With keywords for some of them they still do, in the command and
in its text, unless a value that keeps its placeholder name is behind one that does not. -/
theorem positionalsFirst_assignKeywords {text : Text} {c : Command} (h : Command.parse text = .ok c)
    (keywords : List Text) (limit : Option Int) :
    let named := c.assignKeywords keywords limit
    PositionalsFirst c.bindings ∧
    named.bindings = (c.positionals.mapIdx fun i b => b.rename (c.keywordFor? keywords limit i)) ++
      c.bindings.filter (!·.isPositional) ∧
    (PositionalsFirst named.bindings ↔ ∀ i j, i < j → j < c.positionals.length →
      c.keywordFor? keywords limit j = none → c.keywordFor? keywords limit i = none) ∧
    (PositionalsFirst named.bindings → named.text = (part? c.label).elim [] (· ++ ": ".toList) ++
      Text.unwords (c.name :: named.positionals.map (·.value.text) ++
        (named.bindings.filter (!·.isPositional)).map fun b => b.name ++ '(' :: b.value.text ++ [')'])) := by
  have hfirst := positionalsFirst_of_parse h
  exact ⟨hfirst, bindings_assignKeywords hfirst keywords limit,
    positionalsFirst_assignKeywords_iff hfirst keywords limit,
    text_of_positionalsFirst⟩

theorem positionalsFirst_assignKeywords_limit :
    let c : Command := ⟨"CALL".toList, [⟨"__pos1".toList, .scalar ['A']⟩, ⟨"__pos2".toList, .scalar ['B']⟩,
      ⟨"PARM".toList, .scalar ['C']⟩], none, none⟩
    let named := c.assignKeywords ["parm".toList, "x".toList] (some 2)
    Command.parse "call A B parm(C)".toList = .ok c ∧
      PositionalsFirst named.bindings ∧ named.text = "CALL A X(B) PARM(C)".toList := by
  intro c named
  have hparse : Command.parse "call A B parm(C)".toList = .ok c := by with_unfolding_all rfl
  obtain ⟨-, -, hiff, htext⟩ := positionalsFirst_assignKeywords hparse ["parm".toList, "x".toList] (some 2)
  have hfirst : PositionalsFirst named.bindings := by
    refine hiff.mpr fun i j hlt hj => ?_
    obtain ⟨rfl, rfl⟩ : i = 0 ∧ j = 1 := by
      have : j < 2 := hj
      omega
    decide
  exact ⟨hparse, hfirst, htext hfirst⟩

/-- A value for which there is no keyword comes to stand behind one, and the text is rejected. -/
theorem positionalsFirst_assignKeywords_surplus :
    let c : Command := ⟨"CALL".toList, [⟨"__pos1".toList, .scalar ['A']⟩, ⟨"__pos2".toList, .scalar ['B']⟩,
      ⟨"__pos3".toList, .scalar ['C']⟩], none, none⟩
    let named := c.assignKeywords ["pgm".toList]
    Command.parse "CALL A B C".toList = .ok c ∧
      named.bindings.map (·.name) = ["PGM".toList, "__pos2".toList, "__pos3".toList] ∧
      ¬PositionalsFirst named.bindings ∧ named.text = "CALL PGM(A) B C".toList ∧
      Command.parse named.text = .error ⟨.positionalAfterKeyword, ⟨some named.text, some 12, none⟩⟩ := by
  intro c named
  have htext : named.text = "CALL PGM(A) B C".toList := by decide
  refine ⟨by with_unfolding_all rfl, by decide, ?_, htext, ?_⟩
  · unfold PositionalsFirst
    decide
  · rw [htext]
    with_unfolding_all rfl

end Call

end ControlLanguage
