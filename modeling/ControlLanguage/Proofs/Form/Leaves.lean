import ControlLanguage.Proofs.Form.Heads
import ControlLanguage.Proofs.Words

/-!
# What a form keeps of a text

The words of a form are those of its leaves, from left to right. A flat group
keeps every word of its text. A group with a part that is no simple value has
one word for each of its parts, and what is left of the text after the last
part is lost: `words_read_group`.
-/

namespace ControlLanguage

namespace Form

mutual

def leaves : Form → List Text
  | leaf t => [t]
  | parts items => leavesOf items

def leavesOf : List Form → List Text
  | [] => []
  | f :: fs => leaves f ++ leavesOf fs

end

def words (f : Form) : List Text := f.leaves.flatMap Text.words

section
variable {f : Form} {fs : List Form} {ts : List Text}

theorem leavesOf_eq (fs : List Form) : leavesOf fs = fs.flatMap leaves := by
  induction fs with
  | nil => rfl
  | cons f fs ih => rw [leavesOf, ih, List.flatMap_cons]

theorem leavesOf_map_leaf (ts : List Text) : leavesOf (ts.map leaf) = ts := by
  induction ts with
  | nil => rfl
  | cons t ts ih => rw [List.map_cons, leavesOf, leaves, ih, List.singleton_append]

theorem isEmpty_iff_leaves : ∀ f : Form, f.isEmpty = true ↔ ∀ t ∈ f.leaves, Text.isBlankText t = true
  | leaf t => by simp [isEmpty, leaves]
  | parts items => by
    rw [isEmpty, areEmpty_iff, leaves, leavesOf_eq, List.forall_mem_flatMap]
    exact forall₂_congr fun f _ => isEmpty_iff_leaves f

theorem flatMap_words_of_blank (h : ∀ t ∈ ts, Text.isBlankText t = true) : ts.flatMap Text.words = [] :=
  List.flatMap_eq_nil_iff.mpr fun t ht => Text.words_of_blank (h t ht)

theorem words_of_isEmpty (h : f.isEmpty = true) : f.words = [] :=
  flatMap_words_of_blank ((isEmpty_iff_leaves f).mp h)

theorem words_parts (fs : List Form) : (parts fs).words = fs.flatMap words := by
  rw [words, leaves, leavesOf_eq, List.flatMap_assoc]
  rfl

theorem words_map_leaf (ts : List Text) : (parts (ts.map leaf)).words = ts.flatMap Text.words := by
  rw [words, leaves, leavesOf_map_leaf]

end

end Form

section
variable {w : Text} {ws : List Text} {ss : List Shape}

/-! ## Texts for a number of parts -/

theorem flatMap_words (h : ∀ w ∈ ws, Unspaced w) : ws.flatMap Text.words = ws := by
  rw [List.flatMap_congr fun w hw => Text.words_of_unspaced (h w hw)]
  exact List.flatMap_singleton' ws

theorem flatMap_words_replicate (n : Nat) : (List.replicate n ([] : Text)).flatMap Text.words = [] :=
  Form.flatMap_words_of_blank fun t ht => by rw [List.eq_of_mem_replicate ht]; rfl

/-- Surplus texts stay together in the last one, so no word is lost. -/
theorem flatMap_words_fitTexts (n : Nat) (h : ∀ w ∈ ws, Unspaced w) : (fitTexts n ws).flatMap Text.words = ws := by
  unfold fitTexts
  split
  · rw [List.flatMap_append, flatMap_words fun w hw => h w (List.mem_of_mem_take hw), List.flatMap_singleton,
      Text.words_unwords fun w hw => h w (List.mem_of_mem_drop hw), List.take_append_drop]
  · rw [List.flatMap_append, flatMap_words h, flatMap_words_replicate, List.append_nil]

theorem unspaced_of_isPlain (h : isPlain w = true) : Unspaced w := by
  refine ⟨ne_nil_of_isPlain h, ?_⟩
  rcases isPlain_cases h with h | ⟨name, rfl, hname⟩
  · rw [Word.isSimpleName, Bool.and_eq_true] at h
    exact Word.not_isSpace_of_isCommand (Word.isCommand_of_isName h.2)
  · rw [List.forall_mem_cons]
    exact ⟨by decide, Word.not_isSpace_of_isCommand (Word.isCommand_of_isName hname)⟩

theorem qualifiedParts_of_isPart (h : isPart w = true) (hn : w ≠ []) (n : Nat) :
    qualifiedParts n w = w :: List.replicate (n - 1) [] := by
  have hw := isWord_of_isPart h hn
  have hfields : fields (some '/') w = [w] := by
    have hsplit := fields_intercalate (c := '/') (List.cons_ne_nil w []) (fun _ => rfl)
      (List.forall_mem_singleton.mpr ⟨isField_of_isPart h, hw.trim⟩)
    rwa [List.intercalate_singleton] at hsplit
  rw [qualifiedParts]
  simp only [dropEnclosing_word hw, hfields, if_neg hn]
  cases n with
  | zero => simp [hn]
  | succ n => simp [hn]

/-! ## The parts of a group -/

namespace Shape

theorem words_readParts (h : ∀ w ∈ ws, isPlain w = true) (ss : List Shape) :
    (Form.parts (readParts (Text.unwords ws) ss)).words = ws.take ss.length := by
  induction ss generalizing ws with
  | nil => rw [readParts, List.length_nil, List.take_zero]; rfl
  | cons s ss ih =>
    cases ws with
    | nil =>
      rw [List.take_nil]
      exact Form.words_of_isEmpty (areEmpty_readParts_nil (s :: ss))
    | cons w ws =>
      obtain ⟨hw, hws⟩ := List.forall_mem_cons.mp h
      have hword := isWord_of_isPlain hw
      have hpieces : ∀ v ∈ ws, IsPiece v := fun v hv => .word (isWord_of_isPlain (hws v hv))
      have hwords : Text.words w = [w] := Text.words_of_unspaced (unspaced_of_isPlain hw)
      obtain ⟨f, hparts, hf⟩ : ∃ f, readParts (Text.unwords (w :: ws)) (s :: ss) =
          f :: readParts (Text.unwords ws) ss ∧
          f.words = [w] := by
        cases s with
        | simple l =>
          refine ⟨.leaf w, ?_, (List.flatMap_singleton ..).trans hwords⟩
          rw [readParts, takeWord_unwords hword hpieces]
        | qual ls =>
          refine ⟨.parts ((qualifiedParts ls.length w).map .leaf), ?_, ?_⟩
          · rw [readParts, takeWord_unwords hword hpieces]
          · rw [Form.words_map_leaf, qualifiedParts_of_isPart (isPart_of_isPlain hw) hword.ne_nil,
              List.flatMap_cons,
              hwords, flatMap_words_replicate, List.append_nil]
        | elem es =>
          refine ⟨.parts [.leaf w], readParts_special hword hpieces, ?_⟩
          exact (Form.words_map_leaf [w]).trans ((List.flatMap_singleton ..).trans hwords)
      rw [hparts, Form.words_parts, List.flatMap_cons, hf, ← Form.words_parts, ih hws, List.length_cons,
        List.take_succ_cons, List.singleton_append]

/-- A flat group keeps the names of its text, and surplus ones stay together in its last part. Any other group keeps
one name for each of its parts, and the others are lost. -/
theorem words_read_group (ss : List Shape) (h : ∀ w ∈ ws, Word.isSimpleName w = true) :
    ((elem ss).read (Text.unwords ws)).words = (if isFlat ss then ws else ws.take ss.length) ∧
      (isFlat ss = true → (elem ss).read (Text.unwords ws) = .parts ((fitTexts ss.length ws).map .leaf)) := by
  have hplain : ∀ w ∈ ws, isPlain w = true := fun w hw => by rw [isPlain, h w hw, Bool.true_or]
  have hword : ∀ w ∈ ws, IsWord w := fun w hw => isWord_of_isPlain (hplain w hw)
  refine ⟨?_, fun hf => read_flat hf hword⟩
  by_cases hf : isFlat ss = true
  · rw [read_flat hf hword, if_pos hf, Form.words_map_leaf]
    exact flatMap_words_fitTexts ss.length fun w hw => unspaced_of_isPlain (hplain w hw)
  · rw [read, if_neg hf, if_neg hf]
    by_cases hn : ws = []
    · rw [hn]
      exact @words_readParts [] (by simp) ss
    · rw [dropEnclosing_unwords hn hword]
      exact words_readParts hplain ss

theorem words_read_group_object :
    let leaf : Leaf := ⟨[], []⟩
    let object := qual [leaf, leaf]
    ((elem [object, simple leaf]).read "OBJ LOCK".toList).words = ["OBJ".toList, "LOCK".toList] ∧
      (elem [simple leaf, simple leaf]).read "A B C".toList = .parts [.leaf "A".toList, .leaf "B C".toList] := by
  intro leaf object
  have hgroup := @words_read_group ["OBJ".toList, "LOCK".toList] [object, simple leaf] (by decide)
  have hflat := @words_read_group ["A".toList, "B".toList, "C".toList] [simple leaf, simple leaf] (by decide)
  exact ⟨hgroup.1, hflat.2 rfl⟩

/-- With a name in it, a group loses the words that a flat group would keep. -/
theorem words_read_group_lost : ¬∀ (ss : List Shape) (ws : List Text), (elem ss).isProper = true →
    (∀ w ∈ ws, Word.isSimpleName w = true) → ((elem ss).read (Text.unwords ws)).words = ws := by
  intro h
  let leaf : Leaf := ⟨[], []⟩
  have hlost : ((elem [.qual [leaf, leaf], simple leaf]).read "A B C".toList).words = ["A".toList, "B".toList] :=
    rfl
  have hkept : ((elem [.qual [leaf, leaf], simple leaf]).read "A B C".toList).words = _ :=
    h [.qual [leaf, leaf], simple leaf] ["A".toList, "B".toList, "C".toList] rfl (by decide)
  rw [hlost] at hkept
  exact absurd hkept (by decide)

end Shape

end

end ControlLanguage
