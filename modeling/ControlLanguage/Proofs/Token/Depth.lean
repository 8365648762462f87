import ControlLanguage.Proofs.Grammar
import ControlLanguage.Proofs.Token.OpenLiteral
import ControlLanguage.Proofs.Token.Parens

/-!
# Depth in a text and among its tokens

The scan counts the parentheses of a text character by character, the reader
counts them token by token. Wherever a text is cut between two of its tokens
the counts agree: `Cut.openAfter_iff`.
-/

namespace ControlLanguage

/-! ## Marks -/

section
variable {n : Nesting} {next : Option Char} {i : Nat} {w : Text}

theorem depth_of_not_paren (h : ∀ m ∈ marksBefore next n i w, m.role ≠ .parenOpen ∧ m.role ≠ .parenClose) :
    ∀ m ∈ marksBefore next n i w, m.depth = n.depth := by
  induction w generalizing n i with
  | nil => simp [marksBefore]
  | cons c w ih =>
    rw [marksBefore, List.forall_mem_cons] at h ⊢
    have hstep := Nesting.depth_of_not_paren h.1
    refine ⟨?_, fun m hm => (ih h.2 m hm).trans hstep⟩
    rw [Nesting.depthAt, if_neg h.1.1]
    exact hstep

end

namespace Token

/-! ## Cuts -/

section
variable {first : Bool} {c : Char} {v w u t rest : Text} {k : TokenKind} {pos : Nat} {front later : List Token}

theorem Scanned.after_eq (h : Scanned rest k w) (hr : rest ≠ []) (d : Int) :
    Nesting.after rest.head? ⟨.outside, d⟩ w = ⟨.outside, (Nesting.after rest.head? ⟨.outside, d⟩ w).depth⟩ :=
  congrArg (Nesting.mk · _) (h.mode_after hr d)

theorem Scanned.scan_append (h : Scanned (u ++ rest) k w) (d : Int) (i : Nat) :
    marksBefore rest.head? ⟨.outside, d⟩ i (w ++ u) = marksBefore (u ++ rest).head? ⟨.outside, d⟩ i w ++
      marksBefore rest.head? ⟨.outside, (Nesting.after (u ++ rest).head? ⟨.outside, d⟩ w).depth⟩ (i + w.length) u ∧
    (Nesting.after rest.head? ⟨.outside, d⟩ (w ++ u)).depth =
      (Nesting.after rest.head? ⟨.outside, (Nesting.after (u ++ rest).head? ⟨.outside, d⟩ w).depth⟩ u).depth := by
  rw [marksBefore_append, Nesting.after_append, ← List.head?_append]
  by_cases hr : u ++ rest = []
  · obtain ⟨rfl, rfl⟩ := List.append_eq_nil_iff.mp hr
    exact ⟨rfl, rfl⟩
  · rw [← h.after_eq hr d]
    exact ⟨rfl, rfl⟩

/-- A place where a text, read from the offset `pos` on, is cut between two of its tokens. -/
structure Cut (first : Bool) (pos : Nat) (t : Text) (front later : List Token) where
  before : Text
  rest : Text
  text_eq : t = before ++ rest
  later_eq : later = readFrom (first && front.isEmpty) (pos + before.length) rest
  outside : rest ≠ [] → ∀ d, (Nesting.after rest.head? ⟨.outside, d⟩ before).mode = .outside
  openAfter_iff : ∀ (d d' : Nat) (e : Int), openAfter d front = some d' ↔
    (∀ m ∈ marksBefore rest.head? ⟨.outside, d + e⟩ pos before, e ≤ m.depth) ∧
      (Nesting.after rest.head? ⟨.outside, d + e⟩ before).depth = d' + e

theorem openAfter_token_iff {f : Token} (hw : Scanned (u ++ rest) f.kind w)
    (h : ∀ (d d' : Nat) (e : Int), openAfter d front = some d' ↔
      (∀ m ∈ marksBefore rest.head? ⟨.outside, d + e⟩ (pos + w.length) u, e ≤ m.depth) ∧
        (Nesting.after rest.head? ⟨.outside, d + e⟩ u).depth = d' + e) (d d' : Nat) (e : Int) :
    openAfter d (f :: front) = some d' ↔
      (∀ m ∈ marksBefore rest.head? ⟨.outside, d + e⟩ pos (w ++ u), e ≤ m.depth) ∧
        (Nesting.after rest.head? ⟨.outside, d + e⟩ (w ++ u)).depth = d' + e := by
  obtain ⟨hmarks, hafter⟩ := hw.scan_append (d + e) pos
  rw [hmarks, hafter, List.forall_mem_append]
  by_cases ho : f.kind = .parenOpen
  · rw [ho] at hw
    obtain rfl := hw.parenOpen_eq
    have hd : ((d + 1 : Nat) : Int) + e = d + e + 1 := by omega
    rw [openAfter_open ho, h (d + 1) d' e, hd]
    have hopen : ∀ m ∈ marksBefore (u ++ rest).head? ⟨.outside, d + e⟩ pos ['('], e ≤ m.depth := by
      intro m hm
      obtain rfl := List.mem_singleton.mp hm
      exact Int.le_add_of_nonneg_left (Int.natCast_nonneg d)
    exact ⟨fun hi => ⟨⟨hopen, hi.1⟩, hi.2⟩, fun hi => ⟨hi.1.2, hi.2⟩⟩
  · by_cases hc : f.kind = .parenClose
    · rw [hc] at hw
      obtain rfl := hw.parenClose_eq
      have hclose : (∀ m ∈ marksBefore (u ++ rest).head? ⟨.outside, d + e⟩ pos [')'], e ≤ m.depth) ↔
          e ≤ d + e - 1 :=
        List.forall_mem_singleton
      rw [hclose]
      cases d with
      | zero =>
        rw [openAfter_close_zero hc]
        constructor
        · intro hn; cases hn
        · rintro ⟨⟨hle, -⟩, -⟩; omega
      | succ d =>
        have hd : ((d + 1 : Nat) : Int) + e - 1 = d + e := by omega
        rw [openAfter_close hc, h d d' e, hd]
        have hle : e ≤ d + e := Int.le_add_of_nonneg_left (Int.natCast_nonneg d)
        have hstep : (Nesting.after (u ++ rest).head? ⟨.outside, (d + 1 : Nat) + e⟩ [')']).depth = d + e := hd
        rw [hstep]
        exact ⟨fun hi => ⟨⟨hle, hi.1⟩, hi.2⟩, fun hi => ⟨hi.1.2, hi.2⟩⟩
    · obtain ⟨hparen, hdepth⟩ := hw.not_paren ⟨ho, hc⟩ (d + e) pos
      have hall : ∀ m ∈ marksBefore (u ++ rest).head? ⟨.outside, d + e⟩ pos w, e ≤ m.depth := fun m hm => by
        rw [depth_of_not_paren hparen m hm]
        exact Int.le_add_of_nonneg_left (Int.natCast_nonneg d)
      rw [openAfter_other ho hc, h d d' e, hdepth]
      exact ⟨fun hi => ⟨⟨hall, hi.1⟩, hi.2⟩, fun hi => ⟨hi.1.2, hi.2⟩⟩

theorem Cut.start (first : Bool) (pos : Nat) (t : Text) : Nonempty (Cut first pos t [] (readFrom first pos t)) := by
  refine ⟨⟨[], t, rfl, by rw [List.isEmpty_nil, Bool.and_true]; rfl, fun _ _ => rfl, fun d d' e => ?_⟩⟩
  rw [openAfter, Option.some_inj, marksBefore, Nesting.after]
  simp only [List.not_mem_nil, false_implies, implies_true, true_and]
  omega

theorem exists_cut (h : readFrom first pos t = front ++ later) : Nonempty (Cut first pos t front later) := by
  induction first, pos, t using readFrom_induction generalizing front with
  | nil first pos =>
    have hstart := Cut.start first pos []
    rw [readFrom_nil] at h hstart
    obtain ⟨rfl, rfl⟩ := List.append_eq_nil_iff.mp h.symm
    exact hstart
  | token first pos c v rest k hk ih =>
    cases front with
    | nil =>
      rw [List.nil_append] at h
      rw [← h]
      exact Cut.start first pos _
    | cons f front =>
      rw [readFrom_token hk] at h
      obtain ⟨rfl, htail⟩ := List.cons.inj h
      obtain ⟨before, rest, rfl, hlater, hout, hiff⟩ := ih htail
      have hscan := scanned_of_kindAt hk
      refine ⟨⟨c :: v ++ before, rest, by rw [List.append_assoc], ?_, fun hr d => ?_, fun d d' e => ?_⟩⟩
      · rw [hlater, List.length_append, List.isEmpty_cons, Bool.and_false, Bool.false_and, Nat.add_assoc]
      · have hne : before ++ rest ≠ [] := by simp [hr]
        have hmode := hscan.mode_after hne d
        rw [List.head?_append] at hmode
        rw [Nesting.mode_after_append hmode]
        exact hout hr 0
      · exact openAfter_token_iff (f := ⟨k, _, pos⟩) hscan hiff d d' e

end

/-! ## Balanced texts -/

end Token

/-- Whether every parenthesis outside literals has its partner: the depth of the scan never falls below zero, and it
ends there. -/
def balancedParens (text : Text) : Bool :=
  (marks text).all (0 ≤ ·.depth) && (Nesting.start.after none text).depth == 0

namespace Token

theorem marks_eq_append_blanks (text : Text) : ∃ ms, (∀ m ∈ ms, m.depth = 0) ∧
    marks text = ms ++ marksFrom .start (text.takeWhile isBlank).length (text.dropWhile isBlank) := by
  obtain ⟨hplain, hafter⟩ := plain_of_inert (fun c hc => isInert_of_isBlank (List.mem_takeWhile_imp hc))
    (w := text.takeWhile isBlank) (text.dropWhile isBlank).head? 0 0
  have hdepth := depth_of_not_paren fun m hm => by
    rw [hplain m hm]
    exact ⟨by decide, by decide⟩
  refine ⟨_, hdepth, ?_⟩
  conv_lhs => rw [← List.takeWhile_append_dropWhile (p := isBlank) (l := text)]
  rw [marks_eq, marksFrom_append, Nat.zero_add, Nesting.start, hafter]

theorem balanced_ofText_iff (text : Text) : Balanced (ofText text) ↔ balancedParens text = true := by
  obtain ⟨ms, hms, happ⟩ := marks_eq_append_blanks text
  obtain ⟨before, rest, htext, hlater, -, hiff⟩ := exists_cut (List.append_nil (ofText text)).symm
  obtain rfl := readFrom_eq_nil_iff.mp hlater.symm
  rw [List.append_nil] at htext
  have hafter := Nesting.after_blanks none text (text.dropWhile isBlank)
  rw [List.takeWhile_append_dropWhile, htext] at hafter
  have hall : ms.all (0 ≤ ·.depth) = true := by
    rw [List.all_eq_true]
    intro m hm
    rw [hms m hm]; rfl
  rw [Balanced, hiff 0 0 0, balancedParens, happ, hafter, htext, marksFrom_eq_marksBefore, List.all_append, hall,
    Bool.true_and, Bool.and_eq_true, List.all_eq_true, beq_iff_eq]
  simp only [decide_eq_true_iff]
  rfl

/-! ## Tokens in the text -/

section
variable {text : Text} {t : Token} {front later : List Token}

theorem exists_chars_of_token (h : ofText text = front ++ t :: later) : ∃ a c v rest,
    text = a ++ (c :: v ++ rest) ∧ t.position = (a.length : Nat) ∧
      kindAt front.isEmpty c (v ++ rest) = (t.kind, v.length) ∧
      t.text = (if t.kind = .space then [' '] else c :: v) ∧
      later = readFrom false (a.length + (c :: v).length) rest := by
  obtain ⟨before, after, htext, hlater, -⟩ := exists_cut h
  obtain ⟨c, v, rest, rfl, hkind, hchars, hpos, hnext⟩ := exists_first hlater.symm
  refine ⟨text.takeWhile isBlank ++ before, c, v, rest, ?_, ?_, hkind, hchars, ?_⟩
  · rw [List.append_assoc, ← htext, List.takeWhile_append_dropWhile]
  · rw [hpos, List.length_append]
  · rw [hnext, List.length_append]

theorem exists_text_of_token (h : ofText text = front ++ t :: later) (hs : t.isSpace = false) : ∃ a rest,
    text = a ++ (t.text ++ rest) ∧ t.position = (a.length : Nat) ∧ Scanned rest t.kind t.text ∧
      later = readFrom false (a.length + t.text.length) rest := by
  obtain ⟨a, c, v, rest, htext, hpos, hkind, hchars, hlater⟩ := exists_chars_of_token h
  rw [if_neg (by simpa [isSpace] using hs)] at hchars
  rw [← hchars] at htext hlater
  exact ⟨a, rest, htext, hpos, hchars ▸ scanned_of_kindAt hkind, hlater⟩

/-- An opening parenthesis among the tokens and the one in the text are closed at the same place. -/
theorem closingParen?_of_open (h : ofText text = front ++ t :: later) (hk : t.kind = .parenOpen) : ∃ n : Nat,
    t.position = n ∧ text[n]? = some '(' ∧
      (closingParen? text n).map Int.ofNat = (Span.of? 0 later).map Span.stop := by
  obtain ⟨a, rest, htext, hpos, hscan, hlater⟩ := exists_text_of_token h (by rw [isSpace, hk]; rfl)
  rw [hk] at hscan
  rw [hscan.parenOpen_eq] at htext hlater
  refine ⟨a.length, hpos, by rw [htext]; simp, ?_⟩
  rw [hlater, stop_readFrom, htext, List.singleton_append, closingParen?_append, Option.map_map]
  rfl

end

end Token

/-! ## The first parenthesis without a partner -/

theorem Nesting.depthAt_deeper (n : Nesting) (k : Int) (c : Char) (next : Option Char) :
    (n.deeper k).depthAt c next = n.depthAt c next + k := by
  rw [depthAt, depthAt, step_deeper]
  split <;> rfl

theorem Nesting.depthAt_cases {n : Nesting} {k : Int} (h : k < n.depth) (c : Char) (next : Option Char) :
    (n.step c next).1 = .parenClose ∧ n.depthAt c next = k ∨
      k < n.depthAt c next ∧ k < (n.step c next).2.depth := by
  obtain ⟨mode, d⟩ := n
  unfold depthAt step at *
  grind

/-- In one more parenthesis the first place where the depth falls below zero closes that parenthesis. -/
theorem find?_closesFirst_deeper {n : Nesting} (h : 0 ≤ n.depth) (i : Nat) (t : Text) :
    ((marksFrom (n.deeper 1) i t).find? Mark.closesFirst).map (·.index) =
      ((marksFrom n i t).find? (·.depth < 0)).map (·.index) := by
  induction t generalizing n i with
  | nil => rfl
  | cons c t ih =>
    have hnegative : -1 < n.depth := by omega
    rw [marksFrom_cons, marksFrom_cons, Nesting.depthAt_deeper, Nesting.step_deeper]
    rcases Nesting.depthAt_cases hnegative c t.head? with ⟨hrole, hdepth⟩ | ⟨hdepth, hnext⟩
    · rw [List.find?_cons_of_pos (by simp [Mark.closesFirst, hrole, hdepth]),
        List.find?_cons_of_pos (by simp [hdepth])]
      rfl
    · rw [List.find?_cons_of_neg (by simp [Mark.closesFirst]; omega), List.find?_cons_of_neg (by simp; omega)]
      exact ih (by omega) _

/-- The first closing parenthesis without a partner stands where the depth of the scan falls below zero. -/
theorem Token.find?_depth_neg {text : Text} {t : Token} {front later : List Token}
    (h : ofText text = front ++ t :: later) (hb : Balanced front) (hk : t.kind = .parenClose) :
    ∃ n : Nat, t.position = n ∧ text[n]? = some ')' ∧
      ((marks text).find? (·.depth < 0)).map (·.index) = some n := by
  obtain ⟨a, rest, htext, hpos, hscan, -⟩ := exists_text_of_token h (by rw [isSpace, hk]; rfl)
  rw [hk] at hscan
  rw [hscan.parenClose_eq] at htext
  refine ⟨a.length, hpos, by rw [htext]; simp, ?_⟩
  obtain ⟨ms, hms, happ⟩ := marks_eq_append_blanks text
  have hstop := stop_readFrom true (text.takeWhile isBlank).length (text.dropWhile isBlank) 0
  rw [← ofText, h, Span.of?_append hb hk] at hstop
  obtain ⟨m, hm, hi⟩ := Option.map_eq_some_iff.mp hstop.symm
  have hfind := find?_closesFirst_deeper (show 0 ≤ Nesting.start.depth by decide) (text.takeWhile isBlank).length
    (text.dropWhile isBlank)
  have hnone : ms.find? (·.depth < 0) = none := by
    rw [List.find?_eq_none]
    intro m hm
    rw [hms m hm]; decide
  rw [happ, List.find?_append, hnone, Option.none_or, ← hfind]
  refine (congrArg (Option.map _) hm).trans ?_
  rw [Option.map_some, Option.some_inj]
  exact Int.ofNat_inj.mp (hi.trans hpos)

end ControlLanguage
