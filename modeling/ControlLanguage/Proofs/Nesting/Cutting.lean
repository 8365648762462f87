import ControlLanguage.Nesting.Pieces
import ControlLanguage.Proofs.Nesting.SelfContained
import ControlLanguage.Proofs.Token.Ends

/-!
# Cutting texts that were joined

Words that are joined by blanks are the pieces of the text, and so are groups
in parentheses. Parts that are joined by a separator which none of them has
outside a literal are its fields.
-/

namespace ControlLanguage

theorem trim_eq_self {t : Text} (hf : ∀ c ∈ t.head?, isSpace c = false) (hl : ∀ c ∈ t.getLast?, isSpace c = false) :
    Text.trim t = t := by
  have hleft : Text.trimLeft t = t := by
    cases t with
    | nil => rfl
    | cons c cs => exact List.dropWhile_cons_of_neg (by simp [hf c rfl])
  rw [Text.trim, hleft]
  rcases List.eq_nil_or_concat t with rfl | ⟨cs, c, rfl⟩
  · rfl
  · rw [List.concat_eq_append] at hl ⊢
    exact trimRight_of_closes ⟨cs, c, rfl, hl c (by simp)⟩

theorem not_isSpace_head_trim (t : Text) : ∀ c ∈ (Text.trim t).head?, isSpace c = false := by
  intro c hc
  obtain ⟨u, hu, -⟩ := Text.trimRight_prefix (Text.trimLeft t)
  have hhead : (Text.trimLeft t).head? = some c := by
    rw [Text.trim] at hc
    rw [hu, List.head?_append, hc, Option.some_or]
  have := List.head?_dropWhile_not isSpace t
  rw [← Text.trimLeft, hhead] at this
  simpa using this

theorem not_isSpace_getLast_trim (t : Text) : ∀ c ∈ (Text.trim t).getLast?, isSpace c = false := by
  intro c hc
  rcases closes_trimRight (Text.trimLeft t) with hnil | ⟨cs, d, hend, hd⟩
  · rw [Text.trim, hnil] at hc; cases hc
  · rw [Text.trim, hend, List.getLast?_concat] at hc
    cases hc
    exact hd

theorem trim_trim (t : Text) : Text.trim (Text.trim t) = Text.trim t :=
  trim_eq_self (not_isSpace_head_trim t) (not_isSpace_getLast_trim t)

theorem trim_spaces_append {s : Text} (h : ∀ c ∈ s, isSpace c = true) (t : Text) :
    Text.trim (s ++ t) = Text.trim t := by
  rw [Text.trim, Text.trimLeft, List.dropWhile_append_of_pos h]; rfl

theorem trim_append_spaces {s : Text} (h : ∀ c ∈ s, isSpace c = true) (t : Text) :
    Text.trim (t ++ s) = Text.trim t := by
  rw [Text.trim, Text.trimLeft, List.dropWhile_append]
  split
  · next hnil =>
    rw [Text.trim, Text.trimLeft, List.isEmpty_iff.mp hnil, List.dropWhile_eq_nil_iff.mpr h]
  · exact trimRight_append_spaces h _

theorem intercalate_cons_cons (c : Char) (w v : Text) (vs : List Text) :
    [c].intercalate (w :: v :: vs) = w ++ c :: [c].intercalate (v :: vs) := by
  rw [List.intercalate_cons_cons, List.append_assoc, List.singleton_append]

theorem head?_intercalate {w : Text} (hw : w ≠ []) (c : Char) (ws : List Text) :
    ([c].intercalate (w :: ws)).head? = w.head? := by
  obtain ⟨d, ds, rfl⟩ := List.exists_cons_of_ne_nil hw
  cases ws with
  | nil => rw [List.intercalate_singleton]
  | cons => rw [intercalate_cons_cons]; rfl

theorem intercalate_ne_nil {w : Text} (hw : w ≠ []) (c : Char) (ws : List Text) :
    [c].intercalate (w :: ws) ≠ [] := by
  intro he
  have hhead := head?_intercalate hw c ws
  rw [he] at hhead
  exact hw (List.head?_eq_none_iff.mp hhead.symm)

theorem unwords_singleton (w : Text) : Text.unwords [w] = w := List.intercalate_singleton

theorem unwords_cons_cons (w v : Text) (vs : List Text) :
    Text.unwords (w :: v :: vs) = w ++ ' ' :: Text.unwords (v :: vs) := intercalate_cons_cons ..

theorem head?_unwords {w : Text} {ws : List Text} (hw : w ≠ []) : (Text.unwords (w :: ws)).head? = w.head? :=
  head?_intercalate hw ' ' ws

theorem unwords_ne_nil {w : Text} {ws : List Text} (hw : w ≠ []) : Text.unwords (w :: ws) ≠ [] :=
  intercalate_ne_nil hw ' ' ws

theorem closes_unwords {ws : List Text} (hn : ws ≠ []) (h : ∀ w ∈ ws, Closes w) : Closes (Text.unwords ws) := by
  induction ws with
  | nil => exact absurd rfl hn
  | cons w ws ih =>
    obtain ⟨hw, hws⟩ := List.forall_mem_cons.mp h
    cases ws with
    | nil => rw [unwords_singleton]; exact hw
    | cons v vs =>
      rw [unwords_cons_cons, List.append_cons]
      exact (ih (by simp) hws).append _

/-! ## Segments -/

section
variable {cut : Mark → Cut} {m : Mark} {a ms : List Mark}

theorem segments_ne_nil (cut : Mark → Cut) (ms : List Mark) : segments cut ms ≠ [] := by
  cases ms with
  | nil => simp [segments]
  | cons m ms => rw [segments]; split <;> simp

theorem segments_drop (h : cut m = .drop) : segments cut (m :: ms) = [] :: segments cut ms := by
  rw [segments, h]

theorem segments_after (h : cut m = .after) : segments cut (m :: ms) = [m.char] :: segments cut ms := by
  rw [segments, h]

theorem segments_before (h : cut m = .before) :
    segments cut (m :: ms) = [] :: (segments cut ms).modifyHead (m.char :: ·) := by
  obtain ⟨t, later, hs⟩ := List.exists_cons_of_ne_nil (segments_ne_nil cut ms)
  rw [segments, h, hs]; rfl

theorem segments_inside (h : ∀ m ∈ a, cut m = .inside) :
    segments cut (a ++ ms) = (segments cut ms).modifyHead (a.map (·.char) ++ ·) := by
  obtain ⟨t, later, hs⟩ := List.exists_cons_of_ne_nil (segments_ne_nil cut ms)
  induction a with
  | nil => rw [hs]; exact hs
  | cons m a ih =>
    obtain ⟨hm, ha⟩ := List.forall_mem_cons.mp h
    rw [List.cons_append, segments, hm, ih ha, hs]; rfl

end

theorem map_char_marksBefore (next : Option Char) (n : Nesting) (i : Nat) (t : Text) :
    (marksBefore next n i t).map (·.char) = t := by
  induction t generalizing n i with
  | nil => rfl
  | cons c cs ih => rw [marksBefore, List.map_cons, ih]

theorem segments_unbroken {cut : Mark → Cut} {w rest : Text} (hw : Unbroken w) (hr : rest.head? ≠ some '\'')
    {d : Int} {i : Nat} (hcut : ∀ m ∈ marksBefore rest.head? ⟨.outside, d⟩ i w, cut m = .inside) :
    segments cut (marksFrom ⟨.outside, d⟩ i (w ++ rest)) =
      (segments cut (marksFrom ⟨.outside, d⟩ (i + w.length) rest)).modifyHead (w ++ ·) := by
  rw [marksFrom_append, (hw.scan hr d i).2, segments_inside hcut, map_char_marksBefore]

theorem segments_intercalate {cut : Mark → Cut} {c : Char} {ws : List Text} (hn : ws ≠ [])
    (hc : ∀ next, Nesting.start.step c next = (.plain, .start)) (hsep : ∀ i, cut ⟨i, c, .plain, 0⟩ = .drop)
    (hw : ∀ w ∈ ws, Unbroken w)
    (hcut : ∀ w ∈ ws, ∀ next, next ≠ some '\'' → ∀ i, ∀ m ∈ marksBefore next .start i w, cut m = .inside)
    (i : Nat) :
    segments cut (marksFrom .start i ([c].intercalate ws)) = ws := by
  have hquote : c ≠ '\'' := by
    rintro rfl
    exact absurd (hc none) (by decide)
  induction ws generalizing i with
  | nil => exact absurd rfl hn
  | cons w ws ih =>
    obtain ⟨hw₁, hws⟩ := List.forall_mem_cons.mp hw
    obtain ⟨hcut₁, hcuts⟩ := List.forall_mem_cons.mp hcut
    cases ws with
    | nil =>
      have h := segments_unbroken hw₁ (show ([] : Text).head? ≠ some '\'' by simp) (hcut₁ none (by simp) i)
      rw [List.append_nil] at h
      rw [List.intercalate_singleton]
      exact h.trans (by simp [segments, marksFrom])
    | cons v vs =>
      have hmark : marksFrom .start (i + w.length) (c :: [c].intercalate (v :: vs)) =
          ⟨i + w.length, c, .plain, 0⟩ :: marksFrom .start (i + w.length + 1) ([c].intercalate (v :: vs)) := by
        rw [marksFrom_cons, Nesting.depthAt, hc]; rfl
      have hnext : (c :: [c].intercalate (v :: vs)).head? ≠ some '\'' := by simpa using hquote
      have h := segments_unbroken (d := 0) hw₁ hnext (hcut₁ _ hnext i)
      rw [intercalate_cons_cons]
      refine h.trans ?_
      rw [← Nesting.start, hmark, segments_drop (hsep _), ih (by simp) hws hcuts]
      simp

/-! ## Pieces -/

/-- A text that is one word wherever words are sought: nothing in it divides it, and neither white space nor a
slash comes first. -/
structure IsWord (w : Text) : Prop where
  unbroken : Unbroken w
  opens : ∃ c cs, w = c :: cs ∧ isSpace c = false ∧ c ≠ '/'
  closes : Closes w

section
variable {w : Text} {ws : List Text} {groups : Bool}

theorem IsWord.ne_nil (h : IsWord w) : w ≠ [] := by
  obtain ⟨c, cs, rfl, -⟩ := h.opens
  exact List.cons_ne_nil c cs

theorem IsWord.trim (h : IsWord w) : Text.trim w = w := by
  obtain ⟨c, cs, rfl, hc, -⟩ := h.opens
  obtain ⟨ds, d, hd, hd'⟩ := h.closes
  refine trim_eq_self (by simpa using hc) ?_
  rw [hd]; simpa using hd'

theorem IsWord.head?_ne_open (h : IsWord w) : w.head? ≠ some '(' := by
  obtain ⟨c, cs, rfl, -⟩ := h.opens
  rintro ⟨⟩
  rcases h.unbroken.cons_cases with ⟨hc, -⟩ | ⟨l, v, he, hl, -⟩
  · exact absurd hc (by decide)
  · obtain ⟨u, rfl⟩ := List.head?_eq_some_iff.mp (head?_literal hl)
    cases he

theorem trim_inParens (t : Text) : Text.trim (inParens t) = inParens t := by
  refine trim_eq_self ?_ ?_
  · simpa [inParens] using show isSpace '(' = false by decide
  · rw [inParens, List.getLast?_concat]
    rintro c ⟨⟩
    decide

theorem filter_trim_eq_self {ts : List Text} (h : ∀ t ∈ ts, Text.trim t = t ∧ t ≠ []) :
    (ts.map Text.trim).filter (!·.isEmpty) = ts := by
  rw [List.map_congr_left (g := id) fun t ht => (h t ht).1, List.map_id, List.filter_eq_self]
  intro t ht
  simpa using (h t ht).2

theorem Mark.of_inWord {m : Mark} (h : m.inWord = true) :
    m.isTopBlank = false ∧ m.role ≠ .parenOpen ∧ m.role ≠ .parenClose := by
  rw [Mark.inWord] at h
  refine ⟨?_, ?_, ?_⟩
  · rw [Mark.isTopBlank]
    by_cases hr : m.role = .plain
    · rw [hr] at h ⊢
      have hb : isBlank m.char = false := by simpa [Role.inLiteral] using h
      rw [hb, Bool.and_false]
    · rw [beq_eq_false_iff_ne.mpr hr]; rfl
  all_goals
    intro hr
    rw [hr] at h; cases h

theorem pieceCut_of_inWord {m : Mark} (h : m.inWord = true) : pieceCut groups m = .inside := by
  obtain ⟨hblank, hopen, hclose⟩ := Mark.of_inWord h
  rw [pieceCut, hblank, beq_eq_false_iff_ne.mpr hopen, beq_eq_false_iff_ne.mpr hclose]
  simp

theorem pieces_unwords (hn : ws ≠ []) (h : ∀ w ∈ ws, IsWord w) : pieces (Text.unwords ws) groups = ws := by
  have hcut : segments (pieceCut groups) (marksFrom .start 0 ([' '].intercalate ws)) = ws := by
    refine segments_intercalate hn (fun _ => rfl) (fun _ => rfl) (fun w hw => (h w hw).unbroken) ?_ 0
    intro w hw next hq i m hm
    exact pieceCut_of_inWord (((h w hw).unbroken.scan hq 0 i).1 m hm)
  rw [pieces, marks_eq, Text.unwords, hcut]
  exact filter_trim_eq_self fun w hw => ⟨(h w hw).trim, (h w hw).ne_nil⟩

theorem segments_inParens (h : SelfContained w) (i : Nat) (rest : Text) :
    segments (pieceCut true) (marksFrom .start i (inParens w ++ rest)) =
      [] :: inParens w :: segments (pieceCut true) (marksFrom .start (i + (inParens w).length) rest) := by
  have hopen : marksFrom .start i (inParens w ++ rest) =
      ⟨i, '(', .parenOpen, 0⟩ :: marksFrom ⟨.outside, 1⟩ (i + 1) (w ++ ')' :: rest) := by
    rw [inParens, List.cons_append, List.cons_append, List.append_assoc, List.singleton_append]; rfl
  have hclose : marksFrom ⟨.outside, 1⟩ (i + 1 + w.length) (')' :: rest) =
      ⟨i + 1 + w.length, ')', .parenClose, 0⟩ :: marksFrom .start (i + (inParens w).length) rest := by
    have hlen : i + (inParens w).length = i + 1 + w.length + 1 := by
      simp only [inParens, List.length_append, List.length_cons, List.length_nil]; omega
    rw [hlen]; rfl
  obtain ⟨hall, hend⟩ := h.scan (show (')' :: rest).head? ≠ some '\'' by simp) 1 (i + 1)
  have hcut : ∀ m ∈ marksBefore (')' :: rest).head? ⟨.outside, 1⟩ (i + 1) w, pieceCut true m = .inside := by
    intro m hm
    have hdepth : m.depth ≠ 0 := by
      have := hall m hm
      omega
    simp [pieceCut, Mark.isTopBlank, hdepth]
  rw [hopen, segments_before rfl, marksFrom_append, hend, segments_inside hcut, map_char_marksBefore, hclose,
    segments_after rfl]
  simp [inParens]

/-- What stands as one piece among others: a word, or a group in parentheses. -/
inductive IsPiece : Text → Prop
  | word {v} : IsWord v → IsPiece v
  | group {t} : SelfContained t → IsPiece (inParens t)

theorem IsPiece.trim (h : IsPiece w) : Text.trim w = w ∧ w ≠ [] := by
  cases h with
  | word h => exact ⟨h.trim, h.ne_nil⟩
  | group => exact ⟨trim_inParens _, by simp [inParens]⟩

theorem IsPiece.closes (h : IsPiece w) : Closes w := by
  cases h with
  | word h => exact h.closes
  | @group t => exact ⟨'(' :: t, ')', rfl, by decide⟩

theorem IsPiece.opens (h : IsPiece w) : ∀ c ∈ w.head?, isSpace c = false := by
  intro c hc
  cases h with
  | word h =>
    obtain ⟨d, ds, rfl, hd, -⟩ := h.opens
    cases hc
    exact hd
  | group =>
    cases hc
    decide

theorem IsPiece.selfContained (h : IsPiece w) : SelfContained w := by
  cases h with
  | word h => exact .of_unbroken h.unbroken
  | group h => exact h.inParens

def keptPieces (ts : List Text) : List Text := (ts.map Text.trim).filter (!·.isEmpty)

theorem keptPieces_nil_cons (ts : List Text) : keptPieces ([] :: ts) = keptPieces ts := rfl

theorem keptPieces_cons (h : IsPiece w) (ts : List Text) : keptPieces (w :: ts) = w :: keptPieces ts := by
  rw [keptPieces, List.map_cons, h.trim.1, List.filter_cons_of_pos (by simp [h.trim.2])]
  rfl

/-- A piece is cut from what follows it, whatever the place where it stands. -/
theorem IsPiece.keptPieces_append (h : IsPiece w) {rest : Text} (hr : rest = [] ∨ rest.head? = some ' ') (i : Nat) :
    keptPieces (segments (pieceCut true) (marksFrom .start i (w ++ rest))) =
      w :: keptPieces (segments (pieceCut true) (marksFrom .start (i + w.length) rest)) := by
  cases h with
  | word hw =>
    have hquote : rest.head? ≠ some '\'' := by
      rcases hr with rfl | hr
      · simp
      · rw [hr]; decide
    have hcut : segments (pieceCut true) (marksFrom .start i (w ++ rest)) =
        (segments (pieceCut true) (marksFrom .start (i + w.length) rest)).modifyHead (w ++ ·) :=
      segments_unbroken hw.unbroken hquote fun m hm => pieceCut_of_inWord ((hw.unbroken.scan hquote 0 i).1 m hm)
    have hfirst : ∃ later, segments (pieceCut true) (marksFrom .start (i + w.length) rest) = [] :: later := by
      rcases hr with rfl | hr
      · exact ⟨[], rfl⟩
      · obtain ⟨r, rfl⟩ := List.head?_eq_some_iff.mp hr
        exact ⟨_, segments_drop rfl⟩
    obtain ⟨later, hlater⟩ := hfirst
    rw [hcut, hlater, keptPieces_nil_cons, List.modifyHead_cons, List.append_nil, keptPieces_cons (.word hw)]
  | group ht => rw [segments_inParens ht, keptPieces_nil_cons, keptPieces_cons (.group ht)]

theorem pieces_unwords_of_isPiece (h : ∀ w ∈ ws, IsPiece w) : pieces (Text.unwords ws) true = ws := by
  rw [pieces, marks_eq, ← keptPieces]
  generalize 0 = i
  induction ws generalizing i with
  | nil => rfl
  | cons w ws ih =>
    obtain ⟨hw, hws⟩ := List.forall_mem_cons.mp h
    cases ws with
    | nil =>
      have := hw.keptPieces_append (.inl rfl) i
      rw [List.append_nil] at this
      rw [unwords_singleton, this]
      rfl
    | cons v vs =>
      have hblank : marksFrom .start (i + w.length) (' ' :: Text.unwords (v :: vs)) =
          ⟨i + w.length, ' ', .plain, 0⟩ :: marksFrom .start (i + w.length + 1) (Text.unwords (v :: vs)) := rfl
      rw [unwords_cons_cons, hw.keptPieces_append (.inr rfl), hblank,
        segments_drop rfl, keptPieces_nil_cons, ih hws]

end

/-! ## Fields -/

def IsField (separator : Char) (t : Text) : Prop :=
  isQuoted t = true ∨ (∀ c ∈ t, isOrdinary c = true) ∧ separator ∉ t

section
variable {c : Char} {t : Text} {ts : List Text}

theorem IsField.unbroken (h : IsField c t) : Unbroken t := by
  rcases h with h | ⟨h, -⟩
  · exact .of_literal h
  · exact .of_ordinary h

theorem IsField.fieldCut (h : IsField c t) {next : Option Char} (hq : next ≠ some '\'') (i : Nat) :
    ∀ m ∈ marksBefore next .start i t, fieldCut c m = .inside := by
  intro m hm
  refine if_neg ?_
  simp only [Bool.and_eq_true, beq_iff_eq]
  rintro ⟨⟨hrole, -⟩, hchar⟩
  rcases h with h | ⟨-, h⟩
  · have hlit := (scan_literal h hq 0 i).1 m hm
    rw [hrole] at hlit; cases hlit
  · refine h ?_
    have := List.mem_map_of_mem (f := (·.char)) hm
    rwa [map_char_marksBefore, hchar] at this

theorem fields_intercalate (hn : ts ≠ []) (hc : ∀ next, Nesting.start.step c next = (.plain, .start))
    (h : ∀ t ∈ ts, IsField c t ∧ Text.trim t = t) : fields (some c) ([c].intercalate ts) = ts := by
  have hcut : segments (fieldCut c) (marksFrom .start 0 ([c].intercalate ts)) = ts := by
    refine segments_intercalate hn hc (fun _ => by simp [fieldCut]) (fun t ht => (h t ht).1.unbroken) ?_ 0
    intro t ht next hq i
    exact (h t ht).1.fieldCut hq i
  rw [fields, marks_eq]
  simp only [hcut]
  rw [List.map_congr_left (g := id) fun t ht => (h t ht).2, List.map_id]

end

/-! ## Enclosing parentheses -/

section
variable {w : Text}

theorem dropEnclosing_inParens (h : SelfContained w) (ht : Text.trim w = w) : dropEnclosing (inParens w) = w := by
  have hinner : ((inParens w).drop 1).dropLast = w := by simp [inParens]
  have hclose : closingParen? (inParens w) = some ((inParens w).length - 1) := by
    have := h.closingParen? []
    rw [List.append_nil] at this
    rw [this, inParens]
    simp
  rw [dropEnclosing, trim_inParens]
  refine (if_pos ⟨rfl, hclose⟩).trans ?_
  rw [hinner, ht]

theorem contains_unwords (w v : Text) (vs : List Text) : (Text.unwords (w :: v :: vs)).contains ' ' = true := by
  rw [unwords_cons_cons]
  simp

theorem trim_unwords {ws : List Text} (h : ∀ w ∈ ws, IsPiece w) :
    Text.trim (Text.unwords ws) = Text.unwords ws := by
  cases ws with
  | nil => rfl
  | cons w vs =>
    obtain ⟨ds, d, hd, hlast⟩ := closes_unwords (List.cons_ne_nil w vs) fun v hv => (h v hv).closes
    apply trim_eq_self
    · rw [head?_unwords (h w (List.mem_cons_self ..)).trim.2]
      exact (h w (List.mem_cons_self ..)).opens
    · rw [hd, List.getLast?_concat]
      intro c hc
      cases hc
      exact hlast

theorem dropEnclosing_unwords {ws : List Text} (hn : ws ≠ []) (h : ∀ w ∈ ws, IsWord w) :
    dropEnclosing (Text.unwords ws) = Text.unwords ws := by
  obtain ⟨w, vs, rfl⟩ := List.exists_cons_of_ne_nil hn
  have hw := h w (List.mem_cons_self ..)
  rw [dropEnclosing, trim_unwords fun v hv => .word (h v hv)]
  apply if_neg
  intro hp
  rw [head?_unwords hw.ne_nil] at hp
  exact hw.head?_ne_open hp.1

theorem dropEnclosing_pieces {v : Text} {vs : List Text} (h : ∀ u ∈ w :: v :: vs, IsPiece u) :
    dropEnclosing (Text.unwords (w :: v :: vs)) = Text.unwords (w :: v :: vs) := by
  rw [dropEnclosing, trim_unwords h]
  apply if_neg
  intro hp
  cases h w (List.mem_cons_self ..) with
  | word hw =>
    rw [head?_unwords hw.ne_nil] at hp
    exact hw.head?_ne_open hp.1
  | @group t ht =>
    have hclose := ht.closingParen? (' ' :: Text.unwords (v :: vs))
    have hv : v ≠ [] := (h v (by simp)).trim.2
    have hlen : 0 < (Text.unwords (v :: vs)).length := List.length_pos_iff.mpr (unwords_ne_nil hv)
    rw [unwords_cons_cons, hclose] at hp
    simp only [inParens, List.cons_append, List.append_assoc, List.length_cons, List.length_append,
      Option.some.injEq,
      List.length_nil] at hp
    omega

theorem dropEnclosing_word (h : IsWord w) : dropEnclosing w = w := by
  have := dropEnclosing_unwords (List.cons_ne_nil w []) (by simpa using h)
  rwa [unwords_singleton] at this

end

end ControlLanguage
