import ControlLanguage.Format.Document
import ControlLanguage.Proofs.Format.Settings

/-!
# What documents say

What stands in quotes is read back, whatever it is: in single quotes with the
quotes in it doubled, in double quotes with the characters escaped that would
end a line or the text. A document of lines `key: value` is the table of its
lines (`read_entries`), and a format is read back from the document in which
it is written: `ofDocument_document`.
-/

namespace ControlLanguage

namespace Document

/-! ## Lines -/

section
variable {separates : Char → Bool} {s : Char} {l t : Text} {ls : List Text}

theorem divide_eq_singleton (h : ∀ c ∈ l, separates c = false) : divide separates l = [l] := by
  induction l with
  | nil => rfl
  | cons c l ih =>
    obtain ⟨hc, hl⟩ := List.forall_mem_cons.1 h
    rw [divide, hc, ih hl]
    rfl

theorem divide_append (h : ∀ c ∈ l, separates c = false) (hs : separates s = true) (t : Text) :
    divide separates (l ++ s :: t) = l :: divide separates t := by
  induction l with
  | nil => rw [List.nil_append, divide, if_pos hs]
  | cons c l ih =>
    obtain ⟨hc, hl⟩ := List.forall_mem_cons.1 h
    rw [List.cons_append, divide, hc, ih hl]
    rfl

theorem divide_intercalate (hs : separates s = true) (hne : ls ≠ []) (h : ∀ l ∈ ls, ∀ c ∈ l, separates c = false) :
    divide separates ([s].intercalate ls) = ls := by
  induction ls with
  | nil => exact absurd rfl hne
  | cons l ls ih =>
    obtain ⟨hl, hls⟩ := List.forall_mem_cons.1 h
    cases ls with
    | nil => rw [List.intercalate_singleton, divide_eq_singleton hl]
    | cons m ls =>
      rw [List.intercalate_cons_cons, List.append_assoc, List.singleton_append, divide_append hl hs,
        ih (List.cons_ne_nil _ _) hls]

end

/-! ## Quotes -/

section
variable {c u : Char} {t rest : Text}

def doubleSingles (t : Text) : Text := t.flatMap fun c => if c = '\'' then ['\'', '\''] else [c]

theorem singleQuoted_doubleSingles (hr : rest.head? ≠ some '\'') (t : Text) :
    singleQuoted (doubleSingles t ++ '\'' :: rest) = (t, rest) := by
  induction t with
  | nil =>
    rw [doubleSingles, List.flatMap_nil, List.nil_append, singleQuoted]
    rintro t rfl
    exact hr rfl
  | cons c t ih =>
    rw [doubleSingles, List.flatMap_cons, List.append_assoc, ← doubleSingles]
    by_cases hc : c = '\''
    · rw [if_pos hc, hc, List.cons_append, List.singleton_append, singleQuoted, ih]
    · rw [if_neg hc, List.singleton_append, singleQuoted, ih]
      · exact fun _ h _ => hc h
      · exact hc

def escapeChar (c : Char) : Text :=
  match escapes.find? (·.2 == c) with
  | some e => ['\\', e.1]
  | none => if c = '"' ∨ c = '\\' then ['\\', c] else [c]

theorem escapeChar_cases (c : Char) :
    (∃ e, escapeChar c = ['\\', e] ∧ codeLength e = 0 ∧ (escapes.lookup e).getD e = c ∧ isBreak e = false) ∨
      escapeChar c = [c] ∧ c ≠ '"' ∧ c ≠ '\\' ∧ isBreak c = false := by
  have hescapes : escapes.all (fun e => codeLength e.1 = 0 ∧ escapes.lookup e.1 = some e.2 ∧ isBreak e.1 = false) =
      true := by decide
  have hbreaks : ['\n', '\r', '\u0085', '\u2028', '\u2029'].all (fun b => escapes.any (·.2 == b)) = true := by
    decide
  rw [escapeChar]
  split
  · next e he =>
    obtain ⟨hlength, hlookup, hbreak⟩ :=
      of_decide_eq_true (List.all_eq_true.1 hescapes e (List.mem_of_find?_eq_some he))
    have hc : e.2 = c := beq_iff_eq.1 (List.find?_some (p := fun e : Char × Char => e.2 == c) he)
    exact .inl ⟨e.1, rfl, hlength, by rw [hlookup, hc]; rfl, hbreak⟩
  · next hnone =>
    split
    · next h =>
      refine .inl ⟨c, rfl, ?_⟩
      rcases h with rfl | rfl
      · decide
      · decide
    · next h =>
      rw [not_or] at h
      refine .inr ⟨rfl, h.1, h.2, ?_⟩
      rw [← Bool.not_eq_true]
      intro hbreak
      obtain ⟨e, he, hec⟩ := List.any_eq_true.1 (List.all_eq_true.1 hbreaks c (List.contains_iff_mem.1 hbreak))
      exact List.find?_eq_none.1 hnone e he hec

theorem doubleQuoted_escape (t rest : Text) : doubleQuoted (t.flatMap escapeChar ++ '"' :: rest) = (t, rest) := by
  induction t with
  | nil => rw [List.flatMap_nil, List.nil_append, doubleQuoted]
  | cons c t ih =>
    rw [List.flatMap_cons, List.append_assoc]
    rcases escapeChar_cases c with ⟨e, he, hlength, hlookup, -⟩ | ⟨he, hquote, hslash, -⟩
    · have hnone : inBase? 16 [] = none := rfl
      rw [he, List.cons_append, List.singleton_append, doubleQuoted]
      simp only [hlength, List.drop_zero, List.take_zero, hnone, hlookup, ih]
    · rw [he, List.singleton_append, doubleQuoted, ih]
      · exact hquote
      · exact fun _ _ h => absurd h hslash

theorem not_isBreak_of_mem_escapeChar (h : u ∈ escapeChar c) : isBreak u = false := by
  rcases escapeChar_cases c with ⟨e, he, -, -, hbreak⟩ | ⟨he, -, -, hbreak⟩
  · rw [he] at h
    rcases List.mem_cons.1 h with rfl | h
    · decide
    · rw [List.mem_singleton.1 h, hbreak]
  · rw [he] at h
    rw [List.mem_singleton.1 h, hbreak]

def doubleQuote (t : Text) : Text := '"' :: (t.flatMap escapeChar ++ ['"'])

theorem not_isBreak_of_mem_doubleQuote (h : u ∈ doubleQuote t) : isBreak u = false := by
  rcases List.mem_cons.1 h with rfl | h
  · decide
  · rcases List.mem_append.1 h with h | h
    · obtain ⟨c, -, hc⟩ := List.mem_flatMap.1 h
      exact not_isBreak_of_mem_escapeChar hc
    · rw [List.mem_singleton.1 h]
      decide

end

/-! ## Blanks and comments -/

section
variable {c : Char} {s t : Text}

theorem dropBlanks_cons (hc : isBlank c = false) (t : Text) : dropBlanks (c :: t) = c :: t :=
  List.dropWhile_cons_of_neg (by simp [hc])

theorem dropBlanks_append (hs : ∀ c ∈ s, isBlank c = true) (t : Text) : dropBlanks (s ++ t) = dropBlanks t :=
  List.dropWhile_append_of_pos hs

theorem head?_plainText (hs : ∀ c ∈ s, isBlank c = true) (hc : isBlank c = false) (hcomment : c ≠ '#') (t : Text) :
    (plainText (s ++ c :: t)).head? = some c := by
  have hdrop : ∀ b, ∃ u, dropComment b (s ++ c :: t) = s ++ c :: u := by
    induction s with
    | nil => exact fun b =>
      ⟨dropComment (isBlank c) t, by rw [List.nil_append, dropComment, if_neg (fun h => hcomment h.1)]; rfl⟩
    | cons d s ih =>
      obtain ⟨hd, hs⟩ := List.forall_mem_cons.1 hs
      intro b
      obtain ⟨u, hu⟩ := ih hs (isBlank d)
      have hne : d ≠ '#' := by rintro rfl; cases hd
      exact ⟨u, by rw [List.cons_append, dropComment, if_neg (fun h => hne h.1), hu]; rfl⟩
  obtain ⟨u, hu⟩ := hdrop true
  rw [plainText, hu, trimBlanks, dropBlanks_append hs, dropBlanks_cons hc, List.reverse_cons, dropBlanks,
    List.dropWhile_append]
  split
  · rw [List.dropWhile_cons_of_neg (by simp [hc])]; rfl
  · rw [List.reverse_append]; rfl

theorem dropComment_eq_self (h : '#' ∉ t) (b : Bool) : dropComment b t = t := by
  induction t generalizing b with
  | nil => rfl
  | cons c t ih =>
    rw [List.mem_cons, not_or] at h
    rw [dropComment, if_neg fun hc => h.1 hc.1.symm, ih h.2]

theorem trimBlanks_eq_self (h : ∀ c ∈ t, isBlank c = false) : trimBlanks t = t := by
  have hself : ∀ u : Text, (∀ c ∈ u, isBlank c = false) → dropBlanks u = u := by
    intro u hu
    cases u with
    | nil => rfl
    | cons c u => exact dropBlanks_cons (hu c (List.mem_cons_self ..)) u
  rw [trimBlanks, hself t h, hself _ fun c hc => h c (List.mem_reverse.1 hc), List.reverse_reverse]

theorem plainText_eq_self (hcomment : '#' ∉ t) (h : ∀ c ∈ t, isBlank c = false) : plainText t = t := by
  rw [plainText, dropComment_eq_self hcomment, trimBlanks_eq_self h]

end

/-! ## Values -/

theorem mapM_eq_some_map {α β : Type} {f : α → Option β} {g : α → β} {l : List α} (h : ∀ a ∈ l, f a = some (g a)) :
    l.mapM f = some (l.map g) := by
  induction l with
  | nil => rfl
  | cons a l ih =>
    obtain ⟨ha, hl⟩ := List.forall_mem_cons.1 h
    rw [List.mapM_cons, ha, ih hl]
    rfl

theorem lineValue_eq_scalarValue {c : Char} {t : Text} (hblank : isBlank c = false) (hcomment : c ≠ '#')
    (hlist : c ≠ '[') (htable : c ≠ '\x7b') : lineValue (' ' :: c :: t) = scalarValue (' ' :: c :: t) := by
  have hhead : (plainText (' ' :: c :: t)).head? = some c :=
    head?_plainText (s := [' ']) (List.forall_mem_singleton.2 rfl) hblank hcomment t
  unfold lineValue
  split
  · next heq => rw [heq] at hhead; exact absurd (Option.some.inj hhead).symm hlist
  · next heq => rw [heq] at hhead; exact absurd (Option.some.inj hhead).symm htable
  · rfl

theorem lineValue_doubleQuote (t : Text) : lineValue (' ' :: doubleQuote t) = .text t := by
  rw [doubleQuote, lineValue_eq_scalarValue (by decide) (by decide) (by decide) (by decide)]
  change Datum.text (doubleQuoted (t.flatMap escapeChar ++ '"' :: [])).1 = _
  rw [doubleQuoted_escape]

theorem inBase?_toDigits (n : Nat) : inBase? 10 (Nat.toDigits 10 n) = some n := by
  have hdigit : ∀ c ∈ Nat.toDigits 10 n, c.isDigit = true := fun c => isDigit_of_mem_toDigits
  have hfilter : (Nat.toDigits 10 n).filter (· != '_') = Nat.toDigits 10 n := by
    refine List.filter_eq_self.2 fun c hc => bne_iff_ne.2 ?_
    rintro rfl
    exact Nat.underscore_not_in_toDigits hc
  have hempty : (Nat.toDigits 10 n).isEmpty = false := List.isEmpty_eq_false_iff.2 Nat.toDigits_ne_nil
  have hvalue : ((Nat.toDigits 10 n).map fun c => c.toNat - 48).foldl (fun n d => 10 * n + d) 0 = n := by
    rw [List.foldl_map]
    exact Nat.ofDigitChars_ten_toDigits
  rw [inBase?]
  simp only [hfilter, hempty, Bool.false_eq_true, if_false]
  rw [mapM_eq_some_map, Option.map_some, hvalue]
  intro c hc
  have := toNat_of_isDigit (hdigit c hc)
  rw [if_pos (hdigit c hc), if_pos (by omega)]

theorem natural?_toDigits (n : Nat) : natural? (Nat.toDigits 10 n) = some n := by
  obtain ⟨d, ds, hd, hdigit, hzero⟩ := exists_toDigits n
  by_cases h : d = '0'
  · rw [hzero h]
    rfl
  · have hcolon : divide (· == ':') (d :: ds) = [d :: ds] := by
      refine divide_eq_singleton fun c hc => beq_false_of_ne ?_
      rintro rfl
      exact absurd (isDigit_of_mem_toDigits (hd ▸ hc)) (by decide)
    have hsixty : sexagesimal? (d :: ds) = some n := by
      rw [sexagesimal?, hcolon]
      change (([d :: ds].mapM (inBase? 10)).map fun ns => ns.foldl (fun n d => 60 * n + d) 0) = some n
      rw [← hd, List.mapM_cons, inBase?_toDigits]
      simp
    rw [hd]
    unfold natural?
    split
    · next heq => exact absurd (List.cons.inj heq).1 h
    · next heq => exact absurd (List.cons.inj heq).1 h
    · next heq => exact absurd (List.cons.inj heq).1 h
    · next heq => rw [← (List.cons.inj heq).1, ← (List.cons.inj heq).2, if_pos hdigit, hsixty]
    · next heq => cases heq

theorem plainValue_toDigits (n : Nat) : plainValue (Nat.toDigits 10 n) = .int n := by
  obtain ⟨d, ds, hd, hdigit, -⟩ := exists_toDigits n
  have hsign : d ≠ '-' ∧ d ≠ '+' := by
    constructor
    · rintro rfl; cases hdigit
    · rintro rfl; cases hdigit
  have hwords : ∀ w ∈ nullWords ++ (trueWords ++ falseWords), w.head?.all (!·.isDigit) = true := by decide
  have hword : d :: ds ∉ nullWords ++ (trueWords ++ falseWords) := by
    intro hmem
    have := hwords _ hmem
    rw [List.head?_cons, Option.all_some, hdigit] at this
    cases this
  rw [List.mem_append, List.mem_append, not_or, not_or] at hword
  have hnumber : natural? (d :: ds) = some n := hd ▸ natural?_toDigits n
  rw [hd, plainValue]
  · simp only [List.contains_eq_mem, decide_eq_false hword.1, decide_eq_false hword.2.1, decide_eq_false hword.2.2,
      Bool.false_eq_true, if_false, hnumber, Int.one_mul]
  · exact fun _ heq => hsign.1 (List.cons.inj heq).1
  · exact fun _ heq => hsign.2 (List.cons.inj heq).1

theorem lineValue_toDigits (n : Nat) : lineValue (' ' :: Nat.toDigits 10 n) = .int n := by
  obtain ⟨d, ds, hd, hdigit, -⟩ := exists_toDigits n
  have hchar : ∀ c : Char, c.isDigit = true → isBlank c = false ∧ c ∉ ['#', '[', '\x7b', '\'', '"'] := by
    intro c hc
    have := toNat_of_isDigit hc
    exact ascii_forall (P := fun c => c.isDigit = true → isBlank c = false ∧ c ∉ ['#', '[', '\x7b', '\'', '"'])
      (by decide) (by omega) hc
  have hplain : plainText (Nat.toDigits 10 n) = Nat.toDigits 10 n :=
    plainText_eq_self (fun h => absurd (isDigit_of_mem_toDigits h) (by decide))
      fun c hc => (hchar c (isDigit_of_mem_toDigits hc)).1
  obtain ⟨hblank, hmark⟩ := hchar d hdigit
  simp only [List.mem_cons, List.not_mem_nil, or_false, not_or] at hmark
  obtain ⟨hcomment, hlist, htable, hsingle, hdouble⟩ := hmark
  rw [hd, lineValue_eq_scalarValue hblank hcomment hlist htable, scalarValue, ← List.singleton_append,
    dropBlanks_append (List.forall_mem_singleton.2 rfl), dropBlanks_cons hblank]
  split
  · next heq => exact absurd (List.cons.inj heq).1 hsingle
  · next heq => exact absurd (List.cons.inj heq).1 hdouble
  · rw [← hd, hplain, plainValue_toDigits]

/-! ## Entries -/

/-- A key that needs no quotes. -/
def IsPlainKey (key : Text) : Prop := key ≠ [] ∧ key.all (fun c => c.isAlpha || c == '_') = true

instance (key : Text) : Decidable (IsPlainKey key) := inferInstanceAs (Decidable (_ ∧ _))

def entryLine (key value : Text) : Text := key ++ ':' :: ' ' :: value

section
variable {key value : Text} {c : Char}

theorem IsPlainKey.char (hk : IsPlainKey key) (hc : c ∈ key) :
    isBlank c = false ∧ isBreak c = false ∧ c ∉ [':', '#', '-', '.', '\'', '"'] := by
  have hplain : (c.isAlpha || c == '_') = true := List.all_eq_true.1 hk.2 c hc
  have hascii : c.toNat < 128 := by
    rcases Bool.or_eq_true_iff.1 hplain with h | h
    · exact toNat_lt_of_isAlpha h
    · rw [beq_iff_eq.1 h]; decide
  exact ascii_forall (P := fun c => (c.isAlpha || c == '_') = true →
    isBlank c = false ∧ isBreak c = false ∧ c ∉ [':', '#', '-', '.', '\'', '"']) (by decide) hascii hplain

theorem plainKeyValue?_entryLine (h : ∀ c ∈ key, c ≠ ':' ∧ c ≠ '#') (b : Bool) :
    plainKeyValue? b (entryLine key value) = some (key, ' ' :: value) := by
  induction key generalizing b with
  | nil =>
    rw [entryLine, List.nil_append, plainKeyValue?, if_neg (fun h => absurd h.1 (by decide))]
    rfl
  | cons c key ih =>
    obtain ⟨⟨hcolon, hcomment⟩, hkey⟩ := List.forall_mem_cons.1 h
    have hafter : afterColon? (c :: entryLine key value) = none := by
      rw [afterColon?]
      exact fun _ heq => hcolon (List.cons.inj heq).1
    change plainKeyValue? b (c :: entryLine key value) = _
    rw [plainKeyValue?, if_neg (fun h => hcomment h.1), hafter, ih hkey]
    rfl

theorem keyValue?_entryLine (hk : IsPlainKey key) (value : Text) :
    keyValue? (entryLine key value) = some (key, ' ' :: value) := by
  have hread : plainKeyValue? true (entryLine key value) = some (key, ' ' :: value) := by
    refine plainKeyValue?_entryLine (fun c hc => ?_) true
    obtain ⟨-, -, hmarks⟩ := hk.char hc
    simp only [List.mem_cons, not_or] at hmarks
    exact ⟨hmarks.1, hmarks.2.1⟩
  have htrim : trimBlanks key = key := trimBlanks_eq_self fun c hc => (hk.char hc).1
  obtain ⟨c, cs, rfl⟩ := List.exists_cons_of_ne_nil hk.1
  obtain ⟨hblank, -, hmarks⟩ := hk.char (List.mem_cons_self ..)
  simp only [List.mem_cons, List.not_mem_nil, or_false, not_or] at hmarks
  obtain ⟨-, -, -, -, hsingle, hdouble⟩ := hmarks
  rw [keyValue?, show dropBlanks (entryLine (c :: cs) value) = entryLine (c :: cs) value from
    dropBlanks_cons hblank _]
  split
  · next heq => exact absurd (List.cons.inj heq).1 hsingle
  · next heq => exact absurd (List.cons.inj heq).1 hdouble
  · rw [hread, Option.map_some, htrim]

theorem entryLine_spec (hk : IsPlainKey key) (value : Text) :
    plainText (entryLine key value) ≠ [] ∧ boundaries.contains (plainText (entryLine key value)) = false ∧
      item? (entryLine key value) = none := by
  obtain ⟨c, cs, rfl⟩ := List.exists_cons_of_ne_nil hk.1
  obtain ⟨hblank, -, hmarks⟩ := hk.char (List.mem_cons_self ..)
  simp only [List.mem_cons, List.not_mem_nil, or_false, not_or] at hmarks
  obtain ⟨-, hcomment, hminus, hpoint, -⟩ := hmarks
  have hhead : (plainText (entryLine (c :: cs) value)).head? = some c :=
    head?_plainText (s := []) nofun hblank hcomment _
  have hboundaries : ∀ w ∈ boundaries, w.head? = some '-' ∨ w.head? = some '.' := by decide
  refine ⟨fun hnil => ?_, ?_, ?_⟩
  · rw [hnil] at hhead
    cases hhead
  · rw [← Bool.not_eq_true, List.contains_iff_mem]
    intro hmem
    have := hboundaries _ hmem
    rw [hhead, Option.some.injEq, Option.some.injEq] at this
    exact this.elim hminus hpoint
  · rw [item?, show dropBlanks (entryLine (c :: cs) value) = entryLine (c :: cs) value from
      dropBlanks_cons hblank _]
    split
    · next heq => exact absurd (List.cons.inj heq).1 hminus
    · rfl

theorem read_entries {es : List (Text × Text)} (hne : es ≠ []) (hk : ∀ e ∈ es, IsPlainKey e.1)
    (hv : ∀ e ∈ es, ∀ c ∈ e.2, isBreak c = false) :
    read (['\n'].intercalate (es.map fun e => entryLine e.1 e.2)) =
      .table (Entries.ofList (es.map fun e => (e.1, lineValue (' ' :: e.2)))) := by
  let lines := es.map fun e => entryLine e.1 e.2
  have hbreak : ∀ l ∈ lines, ∀ c ∈ l, isBreak c = false := by
    intro l hl c hc
    obtain ⟨e, he, rfl⟩ := List.mem_map.1 hl
    rcases List.mem_append.1 hc with hc | hc
    · exact ((hk e he).char hc).2.1
    · rcases List.mem_cons.1 hc with rfl | hc
      · decide
      · rcases List.mem_cons.1 hc with rfl | hc
        · decide
        · exact hv e he c hc
  have hcontents : contents (['\n'].intercalate lines) = lines := by
    rw [contents, divide_intercalate (by decide) (by simpa [lines] using hne) hbreak, List.filter_eq_self]
    intro l hl
    obtain ⟨e, he, rfl⟩ := List.mem_map.1 hl
    obtain ⟨hnil, hboundary, -⟩ := entryLine_spec (hk e he) e.2
    rw [hboundary, decide_eq_true hnil]
    rfl
  have hentries : lines.mapM keyValue? = some (es.map fun e => (e.1, ' ' :: e.2)) := by
    rw [List.mapM_map]
    exact mapM_eq_some_map fun e he => keyValue?_entryLine (hk e he) e.2
  have htable : (es.map fun e => (e.1, ' ' :: e.2)).map (fun e => (e.1, lineValue e.2)) =
      es.map fun e => (e.1, lineValue (' ' :: e.2)) := List.map_map
  rw [read, hcontents]
  cases hlines : lines with
  | nil => exact absurd (List.map_eq_nil_iff.1 hlines) hne
  | cons l ls =>
    have hl : l ∈ lines := by rw [hlines]; exact List.mem_cons_self ..
    obtain ⟨e, he, hl⟩ := List.mem_map.1 hl
    have hitem : item? l = none := hl ▸ (entryLine_spec (hk e he) e.2).2.2
    rw [hlines] at hentries
    simp only [hitem, hentries, htable, Option.isSome_none, Bool.false_eq_true, if_false]

end

end Document

namespace Format

open Settings Document

/-- The document of a format. -/
def document (f : Format) : Text :=
  ['\n'].intercalate ([(Key.labelColumn.name, Nat.toDigits 10 f.labelColumn),
    (Key.commandColumn.name, Nat.toDigits 10 f.commandColumn),
    (Key.keywordColumn.name, Nat.toDigits 10 f.keywordColumn),
    (Key.indentColumn.name, Nat.toDigits 10 f.indentColumn), (Key.rightMargin.name, Nat.toDigits 10 f.rightMargin),
    (Key.continuation.name, doubleQuote [f.continuation]), (Key.letterCase.name, doubleQuote f.letterCase.name)].map
    fun e => entryLine e.1 e.2)

/-- A format is read back from its document. -/
theorem ofDocument_document (source : Text) (f : Format) : ofDocument source f.document = .ok f := by
  have hdigits : ∀ n, ∀ c ∈ Nat.toDigits 10 n, isBreak c = false := by
    intro n c hc
    have hdigit := isDigit_of_mem_toDigits hc
    have := toNat_of_isDigit hdigit
    exact ascii_forall (P := fun c => c.isDigit = true → isBreak c = false) (by decide) (by omega) hdigit
  have hnames : ∀ k ∈ Key.all, IsPlainKey k.name := by decide
  have hname : f.letterCase.name.normal = f.letterCase.name := by cases f.letterCase <;> rfl
  have hnodup : (Key.all.map (·.name)).Nodup := by decide
  rw [ofDocument, document, read_entries (List.cons_ne_nil _ _)]
  · change ofTable source (Entries.ofList _) = _
    refine (congrArg (ofTable source) (Entries.ofList_eq_self ?_)).trans ?_
    · exact hnodup
    · simp only [List.map_cons, List.map_nil, lineValue_toDigits, lineValue_doubleQuote]
      exact ofTable_table .int .int .int .int .int ⟨_, rfl, .inl hname⟩
  · simpa only [Key.all, List.forall_mem_cons, List.not_mem_nil, false_imp_iff, implies_true] using hnames
  · simp only [List.forall_mem_cons]
    exact ⟨hdigits _, hdigits _, hdigits _, hdigits _, hdigits _, fun _ => not_isBreak_of_mem_doubleQuote,
      fun _ => not_isBreak_of_mem_doubleQuote, List.forall_mem_nil _⟩

end Format

end ControlLanguage
