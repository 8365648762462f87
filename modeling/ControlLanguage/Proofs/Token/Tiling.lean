import ControlLanguage.Proofs.Token.Depth
import ControlLanguage.Proofs.Token.Ends
import Mathlib.Data.List.Chain

/-!
# Tokens tile the text

The tokens of a text stand side by side in it, from its first character that
is no blank to its end. No token is empty, a space takes all blanks around
its place, and only the first token can be a command: `tiles_ofText`.
-/

namespace ControlLanguage

namespace Token

/-- The characters of the text that a token stands for: a space stands for all blanks from its place on. -/
def source (text : Text) (t : Token) : Text :=
  let rest := text.drop t.position.toNat
  if t.isSpace then rest.takeWhile isBlank else rest.take t.text.length

structure Covers (text : Text) (t : Token) : Prop where
  position_nonneg : 0 ≤ t.position
  source_ne_nil : source text t ≠ []
  text_eq : t.text = if t.isSpace then [' '] else source text t
  /-- No blank stands in front of the run of blanks of a space. -/
  blanks_before : t.isSpace = true → ∀ c ∈ (text.take t.position.toNat).getLast?, isBlank c = false

/-- Tokens that stand side by side in a text, from its first character that is no blank to its end. -/
structure Tiles (text : Text) (ts : List Token) : Prop where
  first : ts.head?.map (·.position) = (text.findIdx? (!isBlank ·)).map Int.ofNat
  covers : ∀ t ∈ ts, Covers text t
  adjacent : ts.IsChain fun t u => u.position = t.position + (source text t).length
  last : ∀ t ∈ ts.getLast?, t.position + (source text t).length = text.length
  spaces : ts.IsChain fun t u => ¬(t.isSpace = true ∧ u.isSpace = true)
  command : ∀ t ∈ ts.tail, t.kind ≠ .command

section
variable {text a v rest : Text} {c : Char} {first : Bool} {t u : Token} {front later : List Token}

/-! ## One token -/

theorem blanks_of_kindAt (h : kindAt first c (v ++ rest) = (.space, v.length)) :
    (∀ x ∈ c :: v, isBlank x = true) ∧ next isBlank rest = false := by
  have hfalse := kindAt_false_of_ne_command h (by decide)
  have hc : isBlank c = true := kindAt_space_iff.mp (congrArg Prod.fst hfalse)
  rw [kindAt_blank hc] at hfalse
  obtain ⟨hall, hend⟩ := takeWhile_append_length_iff.mp (congrArg Prod.snd hfalse)
  rw [List.forall_mem_cons]
  exact ⟨⟨hc, List.all_eq_true.mp hall⟩, hend⟩

theorem source_eq (hpos : t.position = (a.length : Nat)) (hkind : kindAt first c (v ++ rest) = (t.kind, v.length))
    (htext : t.text = if t.kind = .space then [' '] else c :: v) : source (a ++ (c :: v ++ rest)) t = c :: v := by
  rw [source, hpos, Int.toNat_natCast, List.drop_left]
  by_cases hs : t.isSpace = true
  · rw [isSpace_iff.mp hs] at hkind
    obtain ⟨hblank, hend⟩ := blanks_of_kindAt hkind
    rw [if_pos hs]
    exact takeWhile_append_eq (takeWhile_append_length_iff.mpr ⟨List.all_eq_true.mpr hblank, hend⟩)
  · rw [if_neg hs, htext, if_neg (mt isSpace_iff.mpr hs), List.take_left]

structure Piece (text : Text) (t : Token) (before rest : Text) : Prop where
  text_eq : text = before ++ (source text t ++ rest)
  position_eq : t.position = (before.length : Nat)
  source_ne_nil : source text t ≠ []
  token_text : t.text = if t.isSpace then [' '] else source text t
  scanned : Scanned rest t.kind (source text t)
  next_not_blank : t.isSpace = true → next isBlank rest = false

theorem Piece.take_eq {before : Text} (h : Piece text t before rest) :
    text.take (before.length + (source text t).length) = before ++ source text t := by
  refine (congrArg _ h.text_eq).trans ?_
  rw [← List.append_assoc]
  exact List.take_left' List.length_append

theorem exists_piece (h : ofText text = front ++ t :: later) : ∃ before rest, Piece text t before rest ∧
    later = readFrom false (before.length + (source text t).length) rest := by
  obtain ⟨a, c, v, rest, rfl, hpos, hkind, htext, hlater⟩ := exists_chars_of_token h
  have hsource := source_eq hpos hkind htext
  refine ⟨a, rest, ⟨?_, hpos, ?_, ?_, ?_, fun hs => ?_⟩, ?_⟩
  · rw [hsource]
  · rw [hsource]; exact List.cons_ne_nil c v
  · rw [hsource, htext, isSpace]; simp
  · rw [hsource]; exact scanned_of_kindAt hkind
  · rw [isSpace_iff.mp hs] at hkind
    exact (blanks_of_kindAt hkind).2
  · rw [hsource]; exact hlater

/-! ## One token and the next -/

theorem next_of_token (h : ofText text = front ++ t :: u :: later) :
    u.position = t.position + (source text t).length ∧ ¬(t.isSpace = true ∧ u.isSpace = true) := by
  obtain ⟨a, rest, hp, hlater⟩ := exists_piece h
  obtain ⟨c, v, rest, rfl, hkind, -, hnext, -⟩ := exists_first hlater.symm
  refine ⟨by rw [hnext, hp.position_eq, Int.natCast_add], fun ⟨ht, hu⟩ => ?_⟩
  rw [isSpace_iff.mp hu] at hkind
  have hc : isBlank c = true := (blanks_of_kindAt hkind).1 c (List.mem_cons_self ..)
  have hn : isBlank c = false := hp.next_not_blank ht
  rw [hc] at hn; cases hn

theorem first_of_token (h : ofText text = t :: later) :
    t.position = ((text.takeWhile isBlank).length : Nat) ∧ t.isSpace = false := by
  obtain ⟨c, v, rest, hdrop, hkind, -, hpos, -⟩ := exists_first h
  refine ⟨hpos, ?_⟩
  rw [← Bool.not_eq_true]
  intro hs
  rw [isSpace_iff.mp hs] at hkind
  have hc : isBlank c = true := (blanks_of_kindAt hkind).1 c (List.mem_cons_self ..)
  have hn : isBlank c = false := by
    have := next_dropWhile isBlank text
    rwa [hdrop] at this
  rw [hc] at hn; cases hn

theorem blanks_before_of_token (h : ofText text = front ++ t :: later) (hs : t.isSpace = true) :
    ∀ c ∈ (text.take t.position.toNat).getLast?, isBlank c = false := by
  rcases List.eq_nil_or_concat front with rfl | ⟨front, u, rfl⟩
  · rw [(first_of_token h).2] at hs; cases hs
  rw [List.concat_eq_append, List.append_assoc, List.singleton_append] at h
  obtain ⟨hnext, hspaces⟩ := next_of_token h
  obtain ⟨a, rest, hp, hlater⟩ := exists_piece h
  have hrest : rest ≠ [] := by
    rintro rfl
    rw [readFrom_nil] at hlater; cases hlater
  obtain ⟨w, x, hw⟩ := (List.eq_nil_or_concat (source text u)).resolve_left hp.source_ne_nil
  rw [List.concat_eq_append] at hw
  rw [hnext, hp.position_eq, ← Int.natCast_add, Int.toNat_natCast, hp.take_eq, hw, ← List.append_assoc,
    List.getLast?_concat]
  rintro _ ⟨⟩
  exact hp.scanned.last_not_isBlank (fun hk => hspaces ⟨isSpace_iff.mpr hk, hs⟩) hrest hw

/-! ## All tokens -/

theorem position_first (text : Text) :
    (ofText text).head?.map (·.position) = (text.findIdx? (!isBlank ·)).map Int.ofNat := by
  have hblank : (text.takeWhile isBlank).findIdx? (!isBlank ·) = none := by
    rw [List.findIdx?_eq_none_iff]
    intro c hc
    rw [List.mem_takeWhile_imp hc]; rfl
  conv_rhs => rw [← List.takeWhile_append_dropWhile (p := isBlank) (l := text), List.findIdx?_append, hblank]
  have hnext := next_dropWhile isBlank text
  cases hd : text.dropWhile isBlank with
  | nil =>
    rw [ofText, hd, readFrom_nil]; rfl
  | cons c cs =>
    have hc : isBlank c = false := by rwa [hd] at hnext
    rw [List.findIdx?_cons, if_pos (by rw [hc]; rfl), ofText, hd, readFrom_cons]
    simp

theorem covers_of_token (h : ofText text = front ++ t :: later) : Covers text t := by
  obtain ⟨a, rest, hp, -⟩ := exists_piece h
  exact ⟨by rw [hp.position_eq]; exact Int.natCast_nonneg _, hp.source_ne_nil, hp.token_text,
    blanks_before_of_token h⟩

theorem end_of_last (h : ofText text = front ++ [t]) : t.position + (source text t).length = text.length := by
  obtain ⟨a, rest, hp, hlater⟩ := exists_piece h
  obtain rfl := readFrom_eq_nil_iff.mp hlater.symm
  rw [hp.position_eq, ← Int.natCast_add, ← List.length_append]
  conv_rhs => rw [hp.text_eq, List.append_nil]

theorem kind_ne_command_of_token (h : ofText text = front ++ t :: later) (hf : front ≠ []) : t.kind ≠ .command := by
  obtain ⟨-, c, v, rest, -, -, hkind, -⟩ := exists_chars_of_token h
  rw [List.isEmpty_eq_false_iff.mpr hf] at hkind
  rw [← show (kindAt false c (v ++ rest)).1 = t.kind from congrArg Prod.fst hkind]
  exact kindAt_ne_command c (v ++ rest)

end

theorem tiles_ofText (text : Text) : Tiles text (ofText text) where
  first := position_first text
  covers t ht := by
    obtain ⟨front, later, h⟩ := List.append_of_mem ht
    exact covers_of_token h
  adjacent := by
    rw [List.isChain_iff_forall_rel_of_append_cons_cons]
    intro t u front later h
    exact (next_of_token h).1
  last t ht := by
    obtain ⟨front, h⟩ := List.getLast?_eq_some_iff.mp ht
    exact end_of_last h
  spaces := by
    rw [List.isChain_iff_forall_rel_of_append_cons_cons]
    intro t u front later h
    exact (next_of_token h).2
  command t ht := by
    obtain ⟨front, later, htail⟩ := List.append_of_mem ht
    cases h : ofText text with
    | nil => rw [h] at ht; cases ht
    | cons f ts =>
      rw [h, List.tail_cons] at htail
      have hsplit : ofText text = (f :: front) ++ t :: later := by rw [h, htail, List.cons_append]
      exact kind_ne_command_of_token hsplit (List.cons_ne_nil f front)

end Token

end ControlLanguage
