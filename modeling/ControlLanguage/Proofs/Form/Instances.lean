import ControlLanguage.Proofs.Form.Names

/-!
# Repeated groups

The instances of a repeated group stand side by side, each in parentheses
except for a single special value. The reader takes a text without a
parenthesis for one instance, so they are read again if there is at most one
or if one of them has parentheses.
-/

namespace ControlLanguage

/-- The leaves of an instance of a group: the first one is filled in, and blank ones come last. -/
structure IsInstance (arity : Nat) (ts : List Text) : Prop where
  length : ts.length = arity
  plain : ∀ t ∈ ts, Text.isBlankText t = true ∨ isPlain t = true
  first : ∃ t us, ts = t :: us ∧ Text.isBlankText t = false
  blanksLast : ts.Pairwise fun s t => Text.isBlankText s = true → Text.isBlankText t = true

def instanceForm (ts : List Text) : Form := .parts (ts.map .leaf)

/-- A special value and nothing else: such an instance is written without parentheses. -/
def isLoneSpecial (ts : List Text) : Bool :=
  ts.head?.any (·.head? == some '*') && ts.tail.all Text.isBlankText

section
variable {a b t w : Text} {ts ws : List Text} {ls : List Leaf} {ss : List Shape}

/-! ## One instance -/

theorem IsInstance.isEmpty {n : Nat} (h : IsInstance n ts) : (instanceForm ts).isEmpty = false := by
  obtain ⟨t, us, rfl, ht⟩ := h.first
  exact Form.areEmpty_map_leaf.mpr ⟨t, List.mem_cons_self .., ht⟩

theorem markOmitted_eq_self (h : ts.Pairwise fun s t => s = [] → t = []) : markOmitted ts = ts := by
  induction ts with
  | nil => rfl
  | cons t ts ih =>
    obtain ⟨ht, hts⟩ := List.pairwise_cons.mp h
    have hmark : (t.isEmpty && ts.any (!·.isEmpty)) = false := by
      by_cases he : t = []
      · rw [Bool.and_eq_false_iff, List.any_eq_false]
        right
        intro u hu
        simp [ht u hu he]
      · simp [he]
    rw [markOmitted, ih hts, hmark]
    rfl

namespace Shape

theorem read_congr (h : dropEnclosing a = dropEnclosing b) : (elem ss).read a = (elem ss).read b := by
  rw [read, read, h]

theorem settle_instance (h : IsInstance ls.length ts) :
    (elem (ls.map simple)).settle (instanceForm ts) = instanceForm (ts.map unlessBlank) := by
  have hblanks : (ts.map unlessBlank).Pairwise fun s t => s = [] → t = [] := by
    rw [List.pairwise_map]
    apply h.blanksLast.imp
    intro s t hb hs
    exact unlessBlank_eq_nil_iff.mpr (hb (unlessBlank_eq_nil_iff.mp hs))
  rw [settle, leaves_map_simple, instanceForm, Form.leafTexts, Form.map_flatText,
    Leaf.zipWith_settle h.length h.plain,
    markOmitted_eq_self hblanks]
  rfl

theorem isLoneSpecial_of_word (h : IsInstance ls.length ts) (hw : IsWord w) (hstar : w.head? = some '*')
    (hread : (elem (ls.map simple)).read w = instanceForm (ts.map unlessBlank)) : isLoneSpecial ts = true := by
  have hwords : (elem (ls.map simple)).read (Text.unwords [w]) = _ := read_words (by simpa using hw)
  rw [unwords_singleton, hread] at hwords
  have htexts := List.map_injective_iff.mpr (fun _ _ => Form.leaf.inj) (Form.parts.inj hwords)
  obtain ⟨t, ts, rfl, ht⟩ := h.first
  have hlen : ¬ls.length < 1 := by
    rw [← h.length]
    simp
  rw [fitTexts, List.length_singleton, if_neg hlen, List.map_cons, List.singleton_append, List.cons.injEq] at htexts
  have hfirst : t = w := by
    rw [← htexts.1, unlessBlank, if_neg (by simp [ht])]
  have hrest : ∀ u ∈ ts, Text.isBlankText u = true := by
    intro u hu
    apply unlessBlank_eq_nil_iff.mp
    apply List.eq_of_mem_replicate
    rw [← htexts.2]
    exact List.mem_map_of_mem hu
  simp only [isLoneSpecial, List.head?_cons, Option.any_some, List.tail_cons, Bool.and_eq_true, List.all_eq_true]
  exact ⟨by rw [hfirst, hstar]; rfl, hrest⟩

/-- An instance is written as one piece, which has parentheses unless it is a special value. -/
theorem exists_piece (h : IsInstance ls.length ts) (keyword : Text) : ∃ w, IsPiece w ∧
    (elem (ls.map simple)).wrapInstance ((elem (ls.map simple)).write keyword (instanceForm ts)).value = w ∧
      (elem (ls.map simple)).read w = instanceForm (ts.map unlessBlank) ∧
        (w.head? = some '(' ∨ isLoneSpecial ts = true) := by
  have hfits : (elem (ls.map simple)).Fits (instanceForm ts) := .elem (Leaf.forall₂_takes h.length h.plain)
  obtain ⟨ws, hne, hws, hwrite, hread⟩ := hfits.exists_words h.isEmpty keyword
  rw [settle_instance h] at hread
  rw [hwrite, wrapInstance, parenthesize]
  by_cases hstar : ((Text.unwords ws).head? == some '*' && !(Text.unwords ws).contains ' ') = true
  · rw [if_pos hstar]
    simp only [Bool.and_eq_true, beq_iff_eq, Bool.not_eq_true'] at hstar
    obtain ⟨w, vs, rfl⟩ := List.exists_cons_of_ne_nil hne
    cases vs with
    | nil =>
      have hw := hws w (List.mem_cons_self ..)
      rw [unwords_singleton] at hstar hread ⊢
      exact ⟨w, .word hw, rfl, hread, .inr (isLoneSpecial_of_word h hw hstar.1 hread)⟩
    | cons v vs =>
      rw [contains_unwords] at hstar
      cases hstar.2
  · rw [if_neg hstar]
    have hself : SelfContained (Text.unwords ws) := .unwords fun w hw => .of_unbroken (hws w hw).unbroken
    have hdrop : dropEnclosing (inParens (Text.unwords ws)) = dropEnclosing (Text.unwords ws) := by
      rw [dropEnclosing_unwords hne hws]
      exact dropEnclosing_inParens hself (trim_unwords fun w hw => .word (hws w hw))
    exact ⟨_, .group hself, rfl, (read_congr hdrop).trans hread, .inl rfl⟩

end Shape

/-! ## All instances -/

/-- Pieces are the instances again if one has parentheses or there are no two. -/
theorem Schema.instances_unwords {s : Schema} (hs : s.shape = some (.elem ss)) (h : ∀ w ∈ ws, IsPiece w)
    (hd : ws.length ≤ 1 ∨ ∃ w ∈ ws, w.head? = some '(') : s.instances (Text.unwords ws) = ws := by
  unfold Schema.instances
  simp only [pieces_unwords_of_isPiece h, hs]
  by_cases hopen : ws.any (·.head? == some '(') = true
  · rw [if_pos hopen]
  · rw [if_neg hopen]
    have hlen : ws.length ≤ 1 := by
      apply hd.resolve_right
      intro hw
      obtain ⟨w, hmem, hw⟩ := hw
      exact hopen (List.any_eq_true.mpr ⟨w, hmem, by simpa using hw⟩)
    match ws, hlen with
    | [], _ => rfl
    | [w], _ =>
      obtain ⟨htrim, hne⟩ := (h w (List.mem_cons_self ..)).trim
      have hblank : Text.isBlankText w = false := by
        rw [Text.isBlankText, htrim]
        simpa using hne
      rw [unwords_singleton, hblank, htrim]
      rfl

/-- The instances of a repeated group are what is read from the text that they are written as, unless there are
several and all of them are single special values. -/
theorem Schema.read_write_instances {s : Schema} {vs : List (List Text)}
    (hs : s.shape = some (.elem (ls.map .simple)))
    (hr : s.isRepeated = true) (hv : ∀ ts ∈ vs, IsInstance ls.length ts)
    (hd : vs.length ≤ 1 ∨ ∃ ts ∈ vs, isLoneSpecial ts = false) :
    ∃ t, (s.write (.parts (vs.map instanceForm))).run.value = .ok t ∧
      s.read t = .ok (.parts (vs.map fun ts => instanceForm (ts.map unlessBlank))) := by
  let shape := Shape.elem (ls.map .simple)
  let piece (ts : List Text) : Text := shape.wrapInstance (shape.write s.keyword (instanceForm ts)).value
  have hpiece : ∀ ts ∈ vs, IsPiece (piece ts) ∧ shape.read (piece ts) = instanceForm (ts.map unlessBlank) ∧
      ((piece ts).head? = some '(' ∨ isLoneSpecial ts = true) := by
    intro ts hts
    obtain ⟨w, hw, hwrite, hread, hhead⟩ := Shape.exists_piece (hv ts hts) s.keyword
    rw [← hwrite] at hw hread hhead
    exact ⟨hw, hread, hhead⟩
  have hwrite : (shape.writeInstances s.keyword (vs.map instanceForm)).value = vs.map piece := by
    have hfilter : (vs.map instanceForm).filter (!·.isEmpty) = vs.map instanceForm := by
      rw [List.filter_eq_self]
      intro v hv'
      obtain ⟨ts, hts, rfl⟩ := List.mem_map.mp hv'
      simp [(hv ts hts).isEmpty]
    rw [Shape.value_writeInstances, hfilter, List.map_map]
    rfl
  have hinstances : s.instances (Text.unwords (vs.map piece)) = vs.map piece := by
    apply Schema.instances_unwords hs
    · intro w hw
      obtain ⟨ts, hts, rfl⟩ := List.mem_map.mp hw
      exact (hpiece ts hts).1
    · rw [List.length_map]
      apply hd.imp_right
      intro h
      obtain ⟨ts, hts, hlone⟩ := h
      refine ⟨_, List.mem_map_of_mem hts, (hpiece ts hts).2.2.resolve_right ?_⟩
      simp [hlone]
  refine ⟨Text.unwords (vs.map piece), ?_, ?_⟩
  · simp only [Schema.write, hs, hr, if_true]
    exact congrArg (fun ts => Except.ok (Text.unwords ts)) hwrite
  · rw [Schema.read, hs]
    simp only [hr, if_true, hinstances, List.map_map]
    congr 2
    apply List.map_congr_left
    intro ts hts
    exact (hpiece ts hts).2.1

theorem Schema.read_write_instances_mixed :
    let leaf : Leaf := ⟨"CHAR".toList, []⟩
    let s : Schema := ⟨['K'], some (.elem ([leaf, leaf].map .simple)), 3, .null, by decide, by decide, by
      intro s hs; cases hs; rfl⟩
    let vs := [["*A".toList, []], [['B'], ['C']], [['D'], [' ']]]
    ∃ t, (s.write (.parts (vs.map instanceForm))).run.value = .ok t ∧
      s.read t = .ok (.parts ([["*A".toList, []], [['B'], ['C']], [['D'], []]].map instanceForm)) := by
  intro leaf s vs
  have hv : ∀ ts ∈ vs, IsInstance [leaf, leaf].length ts := by
    intro ts hts
    refine ⟨?_, ?_, ?_, ?_⟩ <;> revert ts
    · decide
    · decide
    · simp [vs]; decide
    · decide
  exact Schema.read_write_instances rfl rfl hv (.inr ⟨[['B'], ['C']], by decide, by decide⟩)

/-- Two special values are written without parentheses and are read as one instance. -/
theorem Schema.read_write_special :
    let leaf : Leaf := ⟨"CHAR".toList, []⟩
    let s : Schema := ⟨['K'], some (.elem ([leaf, leaf].map .simple)), 2, .null, by decide, by decide, by
      intro s hs; cases hs; rfl⟩
    (∀ ts ∈ [["*A".toList, []], ["*B".toList, []]], IsInstance 2 ts) ∧
      (s.write (.parts ([["*A".toList, []], ["*B".toList, []]].map instanceForm))).run.value = .ok "*A *B".toList ∧
        s.read "*A *B".toList = .ok (.parts [instanceForm ["*A".toList, "*B".toList]]) := by
  intro leaf s
  refine ⟨fun ts hts => ⟨?_, ?_, ?_, ?_⟩, ?_, ?_⟩
  · revert ts; decide
  · revert ts; decide
  · revert ts; simp; decide
  · revert ts; decide
  · with_unfolding_all rfl
  · with_unfolding_all rfl

end

end ControlLanguage
