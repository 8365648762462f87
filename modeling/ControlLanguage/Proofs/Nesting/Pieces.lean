import ControlLanguage.Proofs.Nesting.Cutting

/-!
# The pieces of a text

A text is divided into its pieces without loss: what is not in them are the
blanks that divide it and the white space around them. Where a text is
divided nothing is open, so what follows is scanned as if it stood alone,
and pieces that are joined by blanks are the pieces again. This holds of
every text, also where literals and parentheses are left open.
-/

namespace ControlLanguage

/-- A text without its blanks outside literals and parentheses. -/
def dropTopBlanks (t : Text) : Text := ((marks t).filter (!·.isTopBlank)).map (·.char)

/-! ## Segments -/

section
variable {cut : Mark → Cut} {m : Mark}

theorem segments_append_drop (h : cut m = .drop) (a b : List Mark) :
    segments cut (a ++ m :: b) = segments cut a ++ segments cut b := by
  induction a with
  | nil => exact segments_drop h
  | cons x a ih =>
    obtain ⟨t, later, hs⟩ := List.exists_cons_of_ne_nil (segments_ne_nil cut a)
    rw [List.cons_append, segments, segments, ih, hs]
    cases cut x <;> rfl

theorem exists_segments_concat (h : cut m = .inside) (a : List Mark) : ∃ ss t, segments cut a = ss ++ [t] ∧
    segments cut (a ++ [m]) = ss ++ [t ++ [m.char]] := by
  induction a with
  | nil => exact ⟨[], [], rfl, by simp [segments, h]⟩
  | cons x a ih =>
    obtain ⟨ss, t, ha, hm⟩ := ih
    rw [List.cons_append, segments, segments, ha, hm]
    cases cut x with
    | drop => exact ⟨[] :: ss, t, rfl, rfl⟩
    | after => exact ⟨[x.char] :: ss, t, rfl, rfl⟩
    | before =>
      cases ss with
      | nil => exact ⟨[[]], x.char :: t, rfl, rfl⟩
      | cons s ss => exact ⟨[] :: (x.char :: s) :: ss, t, rfl, rfl⟩
    | inside =>
      cases ss with
      | nil => exact ⟨[], x.char :: t, rfl, rfl⟩
      | cons s ss => exact ⟨(x.char :: s) :: ss, t, rfl, rfl⟩

theorem flatten_segments (cut : Mark → Cut) (ms : List Mark) :
    (segments cut ms).flatten = (ms.filter (cut · != .drop)).map (·.char) := by
  induction ms with
  | nil => rfl
  | cons m ms ih =>
    obtain ⟨t, later, hs⟩ := List.exists_cons_of_ne_nil (segments_ne_nil cut ms)
    rw [hs, List.flatten_cons] at ih
    rw [segments, hs]
    cases h : cut m with
    | drop => rw [List.filter_cons_of_neg (by simp [h]), ← ih]; rfl
    | _ => rw [List.filter_cons_of_pos (by simp [h]), List.map_cons, ← ih]; rfl

theorem keptPieces_append (ss ts : List Text) : keptPieces (ss ++ ts) = keptPieces ss ++ keptPieces ts := by
  simp [keptPieces]

theorem keptPieces_singleton (t : Text) : keptPieces [t] = [Text.trim t].filter (!·.isEmpty) := rfl

theorem keptPieces_singleton_cases (t : Text) : keptPieces [t] = [] ∨ keptPieces [t] = [Text.trim t] := by
  rw [keptPieces_singleton]
  cases Text.trim t with
  | nil => exact .inl rfl
  | cons c u => exact .inr rfl

end

/-! ## Where a text is divided -/

section
variable {groups : Bool} {n : Nesting} {c : Char} {next : Option Char} {t u : Text} {ps : List Text}

theorem pieces_eq (t : Text) (groups : Bool) :
    pieces t groups = keptPieces (segments (pieceCut groups) (marks t)) := rfl

theorem pieceCut_eq_drop_iff {m : Mark} : pieceCut groups m = .drop ↔ m.isTopBlank = true := by
  unfold pieceCut
  split
  · next h => simp [h]
  · next h =>
    split
    · simp [h]
    · split
      · simp [h]
      · simp [h]

theorem segments_marksFrom (groups : Bool) (n : Nesting) (i j : Nat) (t : Text) :
    segments (pieceCut groups) (marksFrom n i t) = segments (pieceCut groups) (marksFrom n j t) := by
  induction t generalizing n i j with
  | nil => rfl
  | cons c t ih => rw [marksFrom_cons, marksFrom_cons, segments, segments, ih _ (i + 1) (j + 1)]; rfl

theorem keptPieces_marksFrom (groups : Bool) (i : Nat) (t : Text) :
    keptPieces (segments (pieceCut groups) (marksFrom .start i t)) = pieces t groups := by
  rw [segments_marksFrom groups .start i 0]; rfl

theorem pieceCut_cases (groups : Bool) (n : Nesting) (i : Nat) (c : Char) (next : Option Char) :
    let cut := pieceCut groups ⟨i, c, (n.step c next).1, n.depthAt c next⟩
    cut = .inside ∨ (cut = .drop ∧ n = .start ∧ isBlank c = true) ∨ (groups = true ∧ n = .start ∧ c = '(') ∨
      (groups = true ∧ n = ⟨.outside, 1⟩ ∧ c = ')') := by
  intro cut
  obtain ⟨mode, d⟩ := n
  simp only [cut, pieceCut, Mark.isTopBlank, Nesting.depthAt, Nesting.step, Nesting.start]
  cases mode with
  | outside => grind
  | single escaped => grind
  | double => grind

/-! ## White space around a text -/

theorem pieceCut_space (hc : isSpace c = true) (groups : Bool) (n : Nesting) (i : Nat) (next : Option Char) :
    let cut := pieceCut groups ⟨i, c, (n.step c next).1, n.depthAt c next⟩
    cut = .inside ∨ cut = .drop := by
  intro cut
  rcases pieceCut_cases groups n i c next with h | ⟨h, -⟩ | ⟨-, -, rfl⟩ | ⟨-, -, rfl⟩
  · exact .inl h
  · exact .inr h
  · exact absurd hc (by decide)
  · exact absurd hc (by decide)

theorem marksFrom_cons_space (hc : isSpace c = true) (i : Nat) (t : Text) :
    marksFrom .start i (c :: t) = ⟨i, c, .plain, 0⟩ :: marksFrom .start (i + 1) t := by
  rw [marksFrom_cons, Nesting.depthAt, Nesting.start, Nesting.step_inert (isInert_of_isSpace hc)]; rfl

theorem pieces_cons_space (hc : isSpace c = true) (t : Text) : pieces (c :: t) groups = pieces t groups := by
  obtain ⟨u, later, hs⟩ := List.exists_cons_of_ne_nil (segments_ne_nil (pieceCut groups) (marksFrom .start 1 t))
  rw [pieces_eq, marks_eq, marksFrom_cons_space hc, ← keptPieces_marksFrom groups 1 t]
  cases hb : isBlank c with
  | true =>
    have hcut : pieceCut groups ⟨0, c, .plain, 0⟩ = .drop :=
      pieceCut_eq_drop_iff.mpr (by simp [Mark.isTopBlank, hb])
    rw [segments_drop hcut, keptPieces_nil_cons]
  | false =>
    have hcut : pieceCut groups ⟨0, c, .plain, 0⟩ = .inside := by simp [pieceCut, Mark.isTopBlank, hb]
    have htrim : Text.trim (c :: u) = Text.trim u := trim_spaces_append (s := [c]) (by simpa using hc) u
    rw [segments, hcut, hs, keptPieces, keptPieces, List.map_cons, List.map_cons, htrim]

theorem ne_quote_of_isSpace (hc : isSpace c = true) : c ≠ '\'' := by
  rintro rfl
  exact absurd hc (by decide)

theorem marks_concat (hc : c ≠ '\'') (t : Text) : marks (t ++ [c]) = marks t ++
    [⟨t.length, c, ((Nesting.start.after none t).step c none).1, (Nesting.start.after none t).depthAt c none⟩] := by
  have hquote : some c = some '\'' ↔ none = some '\'' := by simpa using hc
  rw [marks_eq, marks_eq, marksFrom_eq_marksBefore, marksFrom_eq_marksBefore, marksBefore_snoc,
    marksBefore_congr hquote, Nesting.after_congr hquote, Nat.zero_add]
  rfl

theorem pieces_append_space (hc : isSpace c = true) (t : Text) : pieces (t ++ [c]) groups = pieces t groups := by
  rw [pieces_eq, pieces_eq, marks_concat (ne_quote_of_isSpace hc)]
  rcases pieceCut_space hc groups (Nesting.start.after none t) t.length none with h | h
  · obtain ⟨ss, u, hu, hconcat⟩ := exists_segments_concat h (marks t)
    have htrim : Text.trim (u ++ [c]) = Text.trim u := trim_append_spaces (by simpa using hc) u
    rw [hconcat, hu, keptPieces_append, keptPieces_append, keptPieces_singleton, keptPieces_singleton, htrim]
  · rw [segments_append_drop h, keptPieces_append]
    exact List.append_nil _

theorem pieces_trim (t : Text) (groups : Bool) : pieces (Text.trim t) groups = pieces t groups :=
  Text.apply_trim (f := (pieces · groups)) (fun _ t hc => pieces_cons_space hc t)
    (fun _ t hc => pieces_append_space hc t) t

/-! ## Pieces that are joined -/

/-- No literal and no parenthesis is open behind a text, and none was closed that it does not open. -/
def NothingOpen (t : Text) : Prop := Nesting.start.after none t = .start

theorem after_spaces {s : Text} (hs : ∀ c ∈ s, isSpace c = true) (next : Option Char) :
    Nesting.start.after next s = .start := by
  induction s with
  | nil => rfl
  | cons c s ih =>
    obtain ⟨hc, hs⟩ := List.forall_mem_cons.mp hs
    rw [Nesting.after, Nesting.start, Nesting.step_inert (isInert_of_isSpace hc)]
    exact ih hs

theorem eq_start_of_after_spaces {s : Text} (hs : ∀ c ∈ s, isSpace c = true) (h : n.after next s = .start) :
    n = .start := by
  have hstep : ∀ {n : Nesting} {c : Char} {next}, isSpace c = true → (n.step c next).2 = .start → n = .start := by
    intro n c next hc h
    have hquote := ne_quote_of_isSpace hc
    have hinert := isInert_iff.mp (isInert_of_isSpace hc)
    obtain ⟨mode, d⟩ := n
    unfold Nesting.step at h
    grind [Nesting.start]
  induction s generalizing n with
  | nil => exact h
  | cons c s ih =>
    obtain ⟨hc, hs⟩ := List.forall_mem_cons.mp hs
    exact hstep hc (ih hs h)

theorem NothingOpen.trim (h : NothingOpen t) : NothingOpen (Text.trim t) := by
  obtain ⟨s, s', hs, hs', he⟩ := Text.exists_trim t
  have hquote : s'.head?.or none = some '\'' ↔ none = some '\'' := by
    rw [Option.or_none]
    refine iff_of_false (fun hq => ?_) (by simp)
    exact ne_quote_of_isSpace (hs' _ (List.mem_of_head? hq)) rfl
  rw [NothingOpen, he, Nesting.after_append, after_spaces hs, Nesting.after_append, Nesting.after_congr hquote] at h
  exact eq_start_of_after_spaces hs' h

theorem pieces_append_blank (h : NothingOpen t) (u : Text) (groups : Bool) :
    pieces (t ++ ' ' :: u) groups = pieces t groups ++ pieces u groups := by
  have hquote : (' ' :: u).head? = some '\'' ↔ none = some '\'' := by simp
  have hblank : marksFrom .start (0 + t.length) (' ' :: u) =
      ⟨0 + t.length, ' ', .plain, 0⟩ :: marksFrom .start (0 + t.length + 1) u := rfl
  rw [pieces_eq, marks_eq, marksFrom_append, marksBefore_congr hquote, Nesting.after_congr hquote, h, hblank,
    segments_append_drop rfl, keptPieces_append, keptPieces_marksFrom, ← marksFrom_eq_marksBefore,
    keptPieces_marksFrom]

theorem pieces_unwords_singleton (ht : pieces t groups = keptPieces [t]) :
    pieces (Text.unwords (keptPieces [t])) groups = keptPieces [t] := by
  rcases keptPieces_singleton_cases t with he | he
  · rw [he]; rfl
  · rw [he] at ht ⊢
    rw [unwords_singleton, pieces_trim, ht]

theorem pieces_unwords_append (h : NothingOpen t) (ht : pieces t groups = keptPieces [t])
    (hps : pieces (Text.unwords ps) groups = ps) :
    pieces (Text.unwords (keptPieces [t] ++ ps)) groups = keptPieces [t] ++ ps := by
  cases ps with
  | nil => rw [List.append_nil, pieces_unwords_singleton ht]
  | cons p ps =>
    rcases keptPieces_singleton_cases t with he | he
    · rw [he]
      exact hps
    · rw [he] at ht ⊢
      rw [List.singleton_append, unwords_cons_cons, pieces_append_blank h.trim, pieces_trim, ht, hps]
      rfl

/-! ## A piece and what follows it -/

/-- The beginning of a piece, up to a place that `next` follows: nothing divides it, other than that it may begin
with the parenthesis of a group. -/
def Uncut (groups : Bool) (next : Option Char) (t : Text) : Prop :=
  (∀ m ∈ marksBefore next .start 0 t, pieceCut groups m = .inside) ∨
    ∃ m ms, marksBefore next .start 0 t = m :: ms ∧ pieceCut groups m = .before ∧
    ∀ m ∈ ms, pieceCut groups m = .inside

theorem Uncut.concat (h : Uncut groups (some c) t)
    (hc : let n := Nesting.start.after (some c) t
      pieceCut groups ⟨0 + t.length, c, (n.step c next).1, n.depthAt c next⟩ = .inside) :
    Uncut groups next (t ++ [c]) := by
  have hconcat := marksBefore_snoc next .start 0 t c
  rcases h with h | ⟨m, ms, hm, hbefore, hms⟩
  · left
    rw [hconcat, List.forall_mem_append]
    exact ⟨h, List.forall_mem_singleton.mpr hc⟩
  · right
    refine ⟨m, ms ++ _, by rw [hconcat, hm, List.cons_append], hbefore, ?_⟩
    rw [List.forall_mem_append]
    exact ⟨hms, List.forall_mem_singleton.mpr hc⟩

theorem Uncut.keptPieces_segments (h : Uncut groups next t) (ms : List Mark) :
    keptPieces (segments (pieceCut groups) (marksBefore next .start 0 t ++ ms)) =
      keptPieces ((segments (pieceCut groups) ms).modifyHead (t ++ ·)) := by
  have hchars := map_char_marksBefore next .start 0 t
  rcases h with h | ⟨m, ms', hm, hbefore, hms⟩
  · rw [segments_inside h, hchars]
  · rw [hm] at hchars ⊢
    rw [← hchars, List.cons_append, segments_before hbefore, segments_inside hms, keptPieces_nil_cons,
      List.modifyHead_modifyHead]
    rfl

theorem Uncut.pieces_append (h : Uncut groups u.head? t) : pieces (t ++ u) groups =
    keptPieces ((segments (pieceCut groups) (marksFrom (Nesting.start.after u.head? t) (0 + t.length) u)).modifyHead
      (t ++ ·)) := by
  rw [pieces_eq, marks_eq, marksFrom_append, h.keptPieces_segments]

theorem uncut_nil (groups : Bool) (next : Option Char) : Uncut groups next [] := .inl (by simp [marksBefore])

theorem uncut_open (groups : Bool) (next : Option Char) : Uncut groups next ['('] := by
  cases groups with
  | false => exact .inl (List.forall_mem_singleton.mpr rfl)
  | true => exact .inr ⟨_, [], rfl, rfl, by simp⟩

theorem Uncut.pieces_eq (h : Uncut groups none t) : pieces t groups = keptPieces [t] := by
  have happ := @Uncut.pieces_append groups t [] h
  rw [List.append_nil] at happ
  rw [happ, marksFrom, segments, List.modifyHead_cons, List.append_nil]

section
variable (h : Uncut groups (some c) t)
include h

theorem Uncut.congr (hc : c ≠ '\'') : Uncut groups none t := by
  rwa [Uncut, marksBefore_congr (show none = some '\'' ↔ some c = some '\'' by simpa using hc)]

theorem Uncut.pieces_blank (hn : Nesting.start.after (some c) t = .start) (hc : isBlank c = true) (u : Text) :
    pieces (t ++ c :: u) groups = keptPieces [t] ++ pieces u groups := by
  have hcut : pieceCut groups ⟨0 + t.length, c, .plain, 0⟩ = .drop :=
    pieceCut_eq_drop_iff.mpr (by simp [Mark.isTopBlank, hc])
  have happ := @Uncut.pieces_append groups t (c :: u) h
  rw [List.head?_cons, hn, marksFrom_cons_space (isSpace_of_isBlank hc), segments_drop hcut, List.modifyHead_cons,
    List.append_nil] at happ
  rw [happ, ← keptPieces_marksFrom groups (0 + t.length + 1) u, ← keptPieces_append, List.singleton_append]

end

theorem Uncut.pieces_group (h : Uncut true (some '(') t) (hn : Nesting.start.after (some '(') t = .start)
    (u : Text) :
    pieces (t ++ '(' :: u) true = keptPieces [t] ++ pieces ('(' :: u) true := by
  have hmarks : ∀ i, marksFrom .start i ('(' :: u) = ⟨i, '(', .parenOpen, 0⟩ :: marksFrom ⟨.outside, 1⟩ (i + 1) u :=
    fun _ => rfl
  have happ := @Uncut.pieces_append true t ('(' :: u) h
  rw [List.head?_cons, hn, hmarks, segments_before rfl, List.modifyHead_cons, List.append_nil] at happ
  rw [happ, ← keptPieces_marksFrom true (0 + t.length) ('(' :: u), hmarks, segments_before rfl, keptPieces_nil_cons,
    ← keptPieces_append, List.singleton_append]

theorem Uncut.pieces_close (h : Uncut true (some ')') t) (hn : Nesting.start.after (some ')') t = ⟨.outside, 1⟩)
    (u : Text) : pieces (t ++ ')' :: u) true = keptPieces [t ++ [')']] ++ pieces u true := by
  have hmarks : ∀ i, marksFrom ⟨.outside, 1⟩ i (')' :: u) =
      ⟨i, ')', .parenClose, 0⟩ :: marksFrom .start (i + 1) u :=
    fun _ => rfl
  have happ := @Uncut.pieces_append true t (')' :: u) h
  rw [List.head?_cons, hn, hmarks, segments_after rfl, List.modifyHead_cons] at happ
  rw [happ, ← keptPieces_marksFrom true (0 + t.length + 1) u, ← keptPieces_append, List.singleton_append]

/-- The pieces are cut off one by one: behind each of them nothing is open, and the next one starts anew. -/
theorem Uncut.pieces_unwords (h : Uncut groups u.head? t) :
    pieces (Text.unwords (pieces (t ++ u) groups)) groups = pieces (t ++ u) groups := by
  induction u generalizing t with
  | nil => rw [List.append_nil, h.pieces_eq, pieces_unwords_singleton h.pieces_eq]
  | cons c u ih =>
    rw [List.head?_cons] at h
    have hopen : c ≠ '\'' → Nesting.start.after (some c) t = .start → NothingOpen t := by
      intro hc hn
      exact (Nesting.after_congr (show none = some '\'' ↔ some c = some '\'' by simpa using hc) .start t).trans hn
    rcases pieceCut_cases groups (Nesting.start.after (some c) t) (0 + t.length) c u.head? with
      hcut | ⟨-, hn, hc⟩ | ⟨hgroups, hn, rfl⟩ | ⟨hgroups, hn, rfl⟩
    · have := ih (h.concat hcut)
      rwa [List.append_assoc] at this
    · have hquote := ne_quote_of_isSpace (isSpace_of_isBlank hc)
      rw [h.pieces_blank hn hc]
      exact pieces_unwords_append (hopen hquote hn) (h.congr hquote).pieces_eq (ih (uncut_nil ..))
    · subst hgroups
      have hgroup := ih (uncut_open true u.head?)
      rw [h.pieces_group hn]
      exact pieces_unwords_append (hopen (by decide) hn) (h.congr (by decide)).pieces_eq hgroup
    · subst hgroups
      have hclose : NothingOpen (t ++ [')']) := by
        rw [NothingOpen, Nesting.after_snoc, hn]; rfl
      have hpiece := h.pieces_close hn []
      rw [h.pieces_close hn]
      exact pieces_unwords_append hclose (hpiece.trans (List.append_nil _)) (ih (uncut_nil ..))

/-- Every piece is a text with no white space around it. The text without the blanks that divide it is cut into its
pieces, each with white space around it, and pieces that are joined by blanks are the pieces again. -/
theorem pieces_unwords_pieces (t : Text) (groups : Bool) :
    (∀ p ∈ pieces t groups, p ≠ [] ∧ Text.trim p = p) ∧
      (∃ ps : List Text, ps.flatten = dropTopBlanks t ∧ pieces t groups = (ps.map Text.trim).filter (!·.isEmpty)) ∧
        pieces (Text.unwords (pieces t groups)) groups = pieces t groups := by
  refine ⟨fun p hp => ?_, ⟨segments (pieceCut groups) (marks t), ?_, rfl⟩, ?_⟩
  · obtain ⟨hmem, hne⟩ := List.mem_filter.mp hp
    obtain ⟨u, -, rfl⟩ := List.mem_map.mp hmem
    exact ⟨by simpa using hne, trim_trim u⟩
  · have hdrop : (fun m => pieceCut groups m != .drop) = fun m => !m.isTopBlank := by
      funext m
      rw [Bool.eq_iff_iff, bne_iff_ne, Ne, pieceCut_eq_drop_iff, Bool.not_eq_true', Bool.not_eq_true]
    rw [flatten_segments, hdrop, dropTopBlanks]
  · exact Uncut.pieces_unwords (t := []) (uncut_nil groups t.head?)

end

end ControlLanguage
