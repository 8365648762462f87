import Mathlib.Logic.Relation
import ControlLanguage.Lines.Layout
import ControlLanguage.Proofs.Comment.Words
import ControlLanguage.Proofs.Lines.Margin

/-!
# Placing pass by pass

Units and the words of a comment are placed in loops. A pass through the loop
of a unit ends it, goes on inside the unit, or ends the line in front of it,
which is then the indent; a pass through the loop of a comment ends it, places
a word, ends the line or cuts the first word. So the loops end, and what they
place is what the recursive functions place: `layout_terminates`.
-/

namespace ControlLanguage

/-! ## Loops -/

/-- What a pass through a loop comes to: the line that is left at the end, or finished lines, notes and the state
before the next pass. -/
inductive Pass (σ : Type)
  | stop (line : Text)
  | goOn (lines : List Text) (notes : List Note) (next : σ)

namespace Pass

variable {σ : Type}

def run (pass : σ → Pass σ) : Nat → σ → Option (Logged Placed)
  | 0, _ => none
  | n + 1, s =>
    match pass s with
    | stop line => some ⟨[], [], line⟩
    | goOn lines notes next =>
      (run pass n next).map fun p => ⟨notes ++ p.notes, lines ++ p.value.lines, p.value.line⟩

def Next (pass : σ → Pass σ) (s s' : σ) : Prop := ∃ lines notes, pass s = goOn lines notes s'

/-- A loop that computes `result`: while `inv` holds, each pass makes `left` smaller. -/
structure Computes (pass : σ → Pass σ) (inv : σ → Prop) (left : σ → Nat) (result : σ → Logged Placed) : Prop where
  stops {s line} : inv s → pass s = stop line → result s = ⟨[], [], line⟩
  goesOn {s lines notes s'} : inv s → pass s = goOn lines notes s' → inv s' ∧ left s' < left s ∧
    result s = ⟨notes ++ (result s').notes, lines ++ (result s').value.lines, (result s').value.line⟩

variable {pass : σ → Pass σ} {inv : σ → Prop} {left : σ → Nat} {result : σ → Logged Placed}

theorem Computes.run_eq (h : Computes pass inv left result) {n : Nat} {s : σ} (hs : inv s) (hn : left s < n) :
    run pass n s = some (result s) := by
  induction n generalizing s with
  | zero => cases hn
  | succ n ih =>
    rw [run]
    cases hp : pass s with
    | stop line => rw [h.stops hs hp]
    | goOn lines notes s' =>
      obtain ⟨hs', hlt, hresult⟩ := h.goesOn hs hp
      rw [hresult]
      simp only [ih hs' (by omega), Option.map_some]

theorem Computes.inv_of_reachable (h : Computes pass inv left result) {s s' : σ} (hs : inv s)
    (hr : Relation.ReflTransGen (Next pass) s s') : inv s' := by
  induction hr with
  | refl => exact hs
  | tail _ hnext ih =>
    obtain ⟨lines, notes, hp⟩ := hnext
    exact (h.goesOn ih hp).1

end Pass

namespace Format

variable {f : Format}

/-! ## Units -/

/-- The line in front of what is left of a unit, and where that begins. -/
structure UnitState where
  line : Text
  start : Nat

/-- What is left begins strictly later, and strictly inside the unit. -/
structure UnitState.Advances (unit : Text) (s s' : UnitState) : Prop where
  lt : s.start < s'.start
  inside : s'.start < unit.length

section
variable {breaks : List Nat} {unit : Text} {more : Bool} {s s' s'' : UnitState} {lines : List Text}
    {notes : List Note}

def unitPass (f : Format) (breaks : List Nat) (unit : Text) (more : Bool) (s : UnitState) : Pass UnitState :=
  if f.hasRoom (s.line ++ unit.drop s.start) more then .stop (s.line ++ unit.drop s.start)
  else
    match lastBreak? breaks unit.length s.start (f.room s.line) with
    | some point => .goOn [s.line ++ unit.extract s.start point ++ [f.continuation]] [] ⟨f.indent, point⟩
    | none =>
      if s.line = f.indent then
        let point := forcedCut unit s.start (f.room s.line)
        .goOn [s.line ++ unit.extract s.start point ++ [f.continuation]]
          [.unitCut unit f.indentColumn f.rightMargin] ⟨f.indent, point⟩
      else .goOn [f.endLine s.line] [] ⟨f.indent, s.start⟩

theorem unitPass_goOn (h : f.unitPass breaks unit more s = .goOn lines notes s') :
    s'.line = f.indent ∧ (s.Advances unit s' ∨ s.line ≠ f.indent ∧ s'.start = s.start) := by
  unfold unitPass at h
  split at h
  · cases h
  · next hroom =>
    split at h
    · next point hbreak =>
      cases h
      obtain ⟨hlt, hlen, -⟩ := lastBreak?_bounds hbreak
      exact ⟨rfl, .inl ⟨hlt, hlen⟩⟩
    · split at h
      · next hline =>
        cases h
        rw [hline] at hroom ⊢
        obtain ⟨hlt, hlen⟩ := forcedCut_of_not_hasRoom (Bool.not_eq_true _ ▸ hroom)
        exact ⟨rfl, .inl ⟨hlt, hlen⟩⟩
      · next hline =>
        cases h
        exact ⟨rfl, .inr ⟨hline, rfl⟩⟩

/-- Only the first pass may leave what is left of the unit as it is. -/
theorem unitPass_advances (h : Pass.Next (f.unitPass breaks unit more) s s')
    (h' : Pass.Next (f.unitPass breaks unit more) s' s'') : s'.Advances unit s'' := by
  obtain ⟨_, _, hp⟩ := h
  obtain ⟨_, _, hp'⟩ := h'
  obtain ⟨-, hadvances | ⟨hline, -⟩⟩ := unitPass_goOn hp'
  · exact hadvances
  · exact absurd (unitPass_goOn hp).1 hline

theorem putFrom_eq_unitPass (f : Format) (breaks : List Nat) (unit : Text) (more : Bool) (s : UnitState) :
    f.putFrom breaks unit more s.line s.start =
      match f.unitPass breaks unit more s with
      | .stop line => ⟨[], [], line⟩
      | .goOn lines notes s' =>
        let p := f.putFrom breaks unit more s'.line s'.start
        ⟨notes ++ p.notes, lines ++ p.value.lines, p.value.line⟩ := by
  -- the notes are those of the passes up to the empty ones of `pure`
  rw [putFrom, unitPass]
  by_cases hroom : f.hasRoom (s.line ++ unit.drop s.start) more = true
  · rw [dif_pos hroom, if_pos hroom]; rfl
  · rw [dif_neg hroom, if_neg hroom]
    dsimp only
    split
    · next point hbreak =>
      rw [show lastBreak? breaks unit.length s.start (f.room s.line) = some point from hbreak]
      exact congrArg (Logged.mk · _) (List.append_nil _)
    · next hbreak =>
      rw [show lastBreak? breaks unit.length s.start (f.room s.line) = none from hbreak]
      by_cases hfresh : s.line = f.indent
      · rw [dif_pos hfresh, if_pos hfresh]
        exact congrArg (fun notes => Logged.mk (_ :: notes) _) (List.append_nil _)
      · rw [dif_neg hfresh, if_neg hfresh]
        exact congrArg (Logged.mk · _) (List.append_nil _)

/-- Two for each character of the unit that is left, and one for a line that is not the indent. -/
def unitPassesLeft (f : Format) (unit : Text) (s : UnitState) : Nat :=
  2 * (unit.length - s.start) + if s.line = f.indent then 0 else 1

theorem computes_unitPass (f : Format) (breaks : List Nat) (unit : Text) (more : Bool) :
    Pass.Computes (f.unitPass breaks unit more) (fun _ => True) (f.unitPassesLeft unit)
      fun s => f.putFrom breaks unit more s.line s.start where
  stops _ hp := by rw [putFrom_eq_unitPass, hp]
  goesOn {s lines notes s'} _ hp := by
    refine ⟨trivial, ?_, by rw [putFrom_eq_unitPass, hp]⟩
    obtain ⟨hline, hnext⟩ := unitPass_goOn hp
    rw [unitPassesLeft, unitPassesLeft, if_pos hline]
    rcases hnext with ⟨hlt, hlen⟩ | ⟨hne, hstart⟩
    · omega
    · rw [if_neg hne, hstart]; omega

end

/-! ## Comments -/

structure CommentState where
  line : Text
  placed : Bool
  words : List Text

section
variable {s s' : CommentState} {lines : List Text} {notes : List Note}

def commentPass (f : Format) : CommentState → Pass CommentState
  | ⟨line, _, []⟩ => .stop line
  | ⟨line, true, w :: ws⟩ =>
    if line.length + 1 + w.length + closingRoom ≤ f.rightMargin then .goOn [] [] ⟨line ++ ' ' :: w, true, ws⟩
    else .goOn [line ++ [' ', f.continuation]] [] ⟨f.indent, false, w :: ws⟩
  | ⟨line, false, w :: ws⟩ =>
    if line.length + w.length + closingRoom ≤ f.rightMargin then .goOn [] [] ⟨line ++ w, true, ws⟩
    else
      let room := max (f.rightMargin - line.length - closingRoom) 1
      .goOn [line ++ w.take room ++ [f.continuation]] [.wordCut w f.rightMargin]
        ⟨f.indent, false, w.drop room :: ws⟩

/-- A line without a word has room for one character, and there is no empty word. -/
structure CommentState.Proper (f : Format) (s : CommentState) : Prop where
  room : s.placed = false → s.line.length + closingRoom < f.rightMargin
  ne_nil : ∀ w ∈ s.words, w ≠ []

/-- A pass places the first word, ends a line with a word on it, or cuts the first word. -/
inductive CommentState.Shrinks : CommentState → CommentState → Prop
  | place {line placed w ws line'} : Shrinks ⟨line, placed, w :: ws⟩ ⟨line', true, ws⟩
  | next {line words line'} : Shrinks ⟨line, true, words⟩ ⟨line', false, words⟩
  | cut {line w v ws line'} : v ≠ [] → v.length < w.length → Shrinks ⟨line, false, w :: ws⟩ ⟨line', false, v :: ws⟩

theorem commentPass_goOn (hs : s.Proper f) (h : f.commentPass s = .goOn lines notes s') :
    s'.Proper f ∧ s.Shrinks s' := by
  have hindent := f.length_indent_le
  have hnext : f.indent.length + closingRoom < f.rightMargin := by
    simp only [commentRoom, closingRoom] at hindent ⊢; omega
  obtain ⟨line, placed, words⟩ := s
  cases words with
  | nil =>
    rw [commentPass] at h
    cases h
  | cons w ws =>
    obtain ⟨hw, hws⟩ := List.forall_mem_cons.mp hs.ne_nil
    cases placed with
    | true =>
      rw [commentPass] at h
      split at h
      · cases h
        exact ⟨⟨by simp, hws⟩, .place⟩
      · cases h
        exact ⟨⟨fun _ => hnext, hs.ne_nil⟩, .next⟩
    | false =>
      rw [commentPass] at h
      split at h
      · cases h
        exact ⟨⟨by simp, hws⟩, .place⟩
      · next hlong =>
        cases h
        have hroom := hs.room rfl
        simp only [closingRoom] at hlong hroom ⊢
        -- there is room for a character, and the word has more than there is room for
        have hrest : w.drop (max (f.rightMargin - line.length - 3) 1) ≠ [] := by
          rw [Ne, List.drop_eq_nil_iff]; omega
        have hlt : (w.drop (max (f.rightMargin - line.length - 3) 1)).length < w.length := by
          rw [List.length_drop]; omega
        exact ⟨⟨fun _ => hnext, List.forall_mem_cons.mpr ⟨hrest, hws⟩⟩, .cut hrest hlt⟩

def putCommentState (f : Format) : CommentState → Logged Placed
  | ⟨line, true, words⟩ => f.putWords line words
  | ⟨line, false, words⟩ => f.putCommentWords line words

theorem putCommentState_eq_commentPass (f : Format) (s : CommentState) :
    f.putCommentState s =
      match f.commentPass s with
      | .stop line => ⟨[], [], line⟩
      | .goOn lines notes s' =>
        let p := f.putCommentState s'
        ⟨notes ++ p.notes, lines ++ p.value.lines, p.value.line⟩ := by
  match s with
  | ⟨line, true, []⟩ => rfl
  | ⟨line, false, []⟩ => rfl
  | ⟨line, true, w :: ws⟩ =>
    rw [putCommentState, putWords, putWord, commentPass]
    by_cases hfits : line.length + 1 + w.length + closingRoom ≤ f.rightMargin
    · rw [if_pos hfits, if_pos hfits]
      exact congrArg (Logged.mk · _) (List.append_nil _)
    · rw [if_neg hfits, if_neg hfits]
      exact congrArg (fun notes => Logged.mk (notes ++ _) _) (List.append_nil _)
  | ⟨line, false, w :: ws⟩ =>
    rw [putCommentState, putCommentWords, putFirstWord, commentPass]
    by_cases hfits : line.length + w.length + closingRoom ≤ f.rightMargin
    · rw [dif_pos hfits, if_pos hfits]
      exact congrArg (Logged.mk · _) (List.append_nil _)
    · rw [dif_neg hfits, if_neg hfits]
      exact congrArg (fun notes => Logged.mk (_ :: notes ++ _) _) (List.append_nil _)

/-- One for each character that is left, two for each word, and one for a line with a word on it. -/
def commentPassesLeft (s : CommentState) : Nat :=
  s.words.flatten.length + 2 * s.words.length + if s.placed then 1 else 0

theorem computes_commentPass (f : Format) :
    Pass.Computes f.commentPass (·.Proper f) commentPassesLeft f.putCommentState where
  stops _ hp := by rw [putCommentState_eq_commentPass, hp]
  goesOn {s lines notes s'} hs hp := by
    obtain ⟨hs', hshrinks⟩ := commentPass_goOn hs hp
    refine ⟨hs', ?_, by rw [putCommentState_eq_commentPass, hp]⟩
    cases hshrinks with
    | @place _ placed =>
      simp only [commentPassesLeft, List.flatten_cons, List.length_append, List.length_cons, if_true]
      omega
    | next => simp [commentPassesLeft]
    | cut _ hlt => simp only [commentPassesLeft, List.flatten_cons, List.length_append, List.length_cons]; omega

end

/-! ## Commands -/

def runUnits (f : Format) (n : Nat) (threshold : Int) (comment : Bool) (line separator : Text) :
    List Text → Option (Logged Placed)
  | [] => some (pure ⟨[], line⟩)
  | u :: us => do
    let p ← Pass.run (f.unitPass (breakPoints threshold u) u (!us.isEmpty || comment)) n ⟨line ++ separator, 0⟩
    let q ← f.runUnits n threshold comment p.value.line [' '] us
    return ⟨p.notes ++ q.notes, p.value.lines ++ q.value.lines, q.value.line⟩

def startOfComment (f : Format) (line comment : Text) : CommentState :=
  ⟨(f.openComment line).line, false, wordsOfComment comment⟩

def runComment (f : Format) (n : Nat) (line comment : Text) : Option (Logged Placed) :=
  if line.length + 1 + comment.length ≤ f.rightMargin then some (pure ⟨[], line ++ ' ' :: comment⟩)
  else
    (Pass.run f.commentPass n (f.startOfComment line comment)).map fun p =>
      ⟨p.notes, (f.openComment line).lines ++ p.value.lines, p.value.line ++ ' ' :: commentEnd⟩

/-- A command laid out with at most `n` passes for each unit and for its comment. -/
def runLayout (f : Format) (n : Nat) (c : Command) (threshold : Int) : Option (Logged (List Text)) := do
  let first := f.headLine c
  let comment := Call.part? c.comment
  let p ← f.runUnits n threshold comment.isSome first (f.headGap first) (c.units.map f.letterCase.apply)
  match comment with
  | none => return ⟨p.notes, p.value.lines ++ [p.value.line]⟩
  | some comment =>
    let q ← f.runComment n p.value.line comment
    return ⟨p.notes ++ q.notes, p.value.lines ++ q.value.lines ++ [q.value.line]⟩

section
variable {n : Nat} {threshold : Int}

theorem runUnits_eq {comment : Bool} {line separator : Text} {units : List Text}
    (hn : ∀ u ∈ units, 2 * u.length + 1 < n) :
    f.runUnits n threshold comment line separator units =
    some (f.putAll threshold comment line separator units) := by
  induction units generalizing line separator with
  | nil => rfl
  | cons u us ih =>
    obtain ⟨hu, hus⟩ := List.forall_mem_cons.mp hn
    have hleft : f.unitPassesLeft u ⟨line ++ separator, 0⟩ < n := by
      unfold unitPassesLeft
      split <;> omega
    have hrun := (f.computes_unitPass (breakPoints threshold u) u (!us.isEmpty || comment)).run_eq trivial hleft
    have hrest : ∀ line', f.runUnits n threshold comment line' [' '] us = _ := fun line' => ih hus
    rw [runUnits, hrun, putAll]
    simp only [Option.bind_eq_bind, Option.bind_some, hrest]
    exact congrArg (fun notes => some (Logged.mk (_ ++ notes) _)) (List.append_nil _).symm

theorem proper_startOfComment (f : Format) (line comment : Text) : (f.startOfComment line comment).Proper f where
  room _ := (f.openComment_within line).2
  ne_nil _ hw := (unspaced_of_mem_wordsOfComment hw).ne_nil

theorem runComment_eq {line comment : Text} (hn : commentPassesLeft (f.startOfComment line comment) < n) :
    f.runComment n line comment = some (f.putComment line comment) := by
  have hrun := f.computes_commentPass.run_eq (f.proper_startOfComment line comment) hn
  rw [runComment, putComment, hrun]
  split
  · rfl
  · exact congrArg (fun notes => some (Logged.mk notes _)) (List.append_nil _).symm

theorem runLayout_eq {c : Command} (hunits : ∀ u ∈ c.units.map f.letterCase.apply, 2 * u.length + 1 < n)
    (hcomment : ∀ comment ∈ Call.part? c.comment, ∀ line, commentPassesLeft (f.startOfComment line comment) < n) :
    f.runLayout n c threshold = some (f.layout c threshold) := by
  rw [runLayout, layout]
  cases hc : Call.part? c.comment with
  | none =>
    simp only [Option.isSome_none, runUnits_eq hunits, Option.bind_eq_bind, Option.bind_some]
    exact congrArg (fun notes => some (Logged.mk notes _)) (List.append_nil _).symm
  | some comment =>
    simp only [Option.isSome_some, runUnits_eq hunits, Option.bind_eq_bind, Option.bind_some,
      runComment_eq (hcomment comment hc _)]
    exact congrArg (fun notes => some (Logged.mk (_ ++ notes) _)) (List.append_nil _).symm

/-- Enough passes show what is laid out. -/
theorem of_runLayout {α : Type} {c : Command} {g : Logged (List Text) → α} {a : α}
    (h : (f.runLayout n c threshold).map g = some a)
    (hunits : ∀ u ∈ c.units.map f.letterCase.apply, 2 * u.length + 1 < n)
    (hcomment : ∀ comment ∈ Call.part? c.comment, ∀ line, commentPassesLeft (f.startOfComment line comment) < n) :
    g (f.layout c threshold) = a := by
  rw [runLayout_eq hunits hcomment] at h
  exact Option.some.inj h

theorem exists_runLayout (f : Format) (c : Command) (threshold : Int) :
    ∃ limit, ∀ n, limit ≤ n → f.runLayout n c threshold = some (f.layout c threshold) := by
  let units := c.units.map f.letterCase.apply
  -- the passes for a comment do not depend on the line in front of it
  let words := f.startOfComment [] ((Call.part? c.comment).getD [])
  refine ⟨2 * units.flatten.length + commentPassesLeft words + 2, fun n hn => runLayout_eq ?_ ?_⟩
  · intro u (hu : u ∈ units)
    have := (List.sublist_flatten_of_mem hu).length_le
    omega
  · intro comment hc line
    have : commentPassesLeft (f.startOfComment line comment) = commentPassesLeft words := by
      simp only [words, Option.mem_def.mp hc]; rfl
    omega

/-- The loops of a layout end and come to what is laid out. Each pass in the loop of a unit goes on inside the unit
or puts the indent in front of what is left, which no two passes in a row do; each pass in the loop of a comment
shrinks what is left. -/
theorem layout_terminates (f : Format) (c : Command) (threshold : Int) :
    (∃ limit, ∀ n, limit ≤ n → f.runLayout n c threshold = some (f.layout c threshold)) ∧
    (∀ breaks unit more s s', Pass.Next (f.unitPass breaks unit more) s s' →
      (s.Advances unit s' ∨ s.line ≠ f.indent ∧ s' = ⟨f.indent, s.start⟩) ∧
      ∀ s'', Pass.Next (f.unitPass breaks unit more) s' s'' → s'.Advances unit s'') ∧
    ∀ line comment s s', Relation.ReflTransGen (Pass.Next f.commentPass) (f.startOfComment line comment) s →
      Pass.Next f.commentPass s s' → s.Shrinks s' := by
  refine ⟨f.exists_runLayout c threshold, fun breaks unit more s s' hnext => ⟨?_, fun _ => unitPass_advances hnext⟩,
    fun line comment s s' hr hnext => ?_⟩
  · obtain ⟨lines, notes, hp⟩ := hnext
    obtain ⟨hline, hadvances | ⟨hne, hstart⟩⟩ := unitPass_goOn hp
    · exact .inl hadvances
    · refine .inr ⟨hne, ?_⟩
      rw [← hline, ← hstart]
  · obtain ⟨lines, notes, hp⟩ := hnext
    have hs := f.computes_commentPass.inv_of_reachable (f.proper_startOfComment line comment) hr
    exact (commentPass_goOn hs hp).2

end

end Format

end ControlLanguage
