import ControlLanguage.Proofs.Case.Upper
import ControlLanguage.Proofs.Format.Number

/-!
# What settings say

Settings describe a format if each of them is given with a value that stands
for what the format has there. They are read as the format that they describe
if no other key is among them (`ofSettings_eq_ok_iff`), and otherwise every
problem is told at the key that has it, or the two columns that do not go
together (`ofSettings_cases`). In a table from elsewhere the keys that name no
setting do not count, so only a setting under both of its names is one too
many: `ofTable_eq_ok_iff`. Every format has such tables, its columns written
as numbers or as texts: `ofTable_table`.
-/

namespace ControlLanguage

namespace Settings

section
variable {settings : Settings} {k : Key} {key : Text} {d : Datum} {p : Problem} {α : Type} {a : α}
    {default : Option α}
  {convert : Datum → Except ProblemKind α}

/-! ## One setting -/

/-- The setting is given with a value that stands for `a`. -/
def Gives (settings : Settings) (k : Key) (convert : Datum → Except ProblemKind α) (a : α) : Prop :=
  ∃ key d, k.find? settings = some (key, d) ∧ convert d = .ok a

theorem read_eq_ok_iff : read settings k default convert = .ok a ↔
    Gives settings k convert a ∨ k.find? settings = none ∧ default = some a := by
  unfold read Gives
  cases k.find? settings with
  | none => cases default <;> simp
  | some e =>
    obtain ⟨key, d⟩ := e
    cases hd : convert d <;> simp [hd]

theorem read_eq_error_iff : read settings k default convert = .error p ↔
    (∃ key d kind, k.find? settings = some (key, d) ∧ convert d = .error kind ∧ p = ⟨kind, some key⟩) ∨
      k.find? settings = none ∧ default = none ∧ p = ⟨.missing, some k.preferred⟩ := by
  unfold read
  cases k.find? settings with
  | none => cases default <;> simp [eq_comm]
  | some e =>
    obtain ⟨key, d⟩ := e
    cases hd : convert d <;> simp [hd, eq_comm]

theorem mem_of_find? (h : k.find? settings = some (key, d)) : (key, d) ∈ settings ∧ key ∈ k.names := by
  obtain ⟨name, hname, hfind⟩ := List.exists_of_findSome?_eq_some h
  have hkey : key = name := by simpa using List.find?_some hfind
  exact ⟨List.mem_of_find?_eq_some hfind, hkey ▸ hname⟩

theorem problemOf_eq_nil_iff {x : Except Problem α} : problemOf x = [] ↔ ∃ a, x = .ok a := by
  cases x with
  | error p => simp [problemOf]
  | ok a => simp [problemOf]

theorem key_of_mem_problemOf (h : p ∈ problemOf (read settings k default convert)) :
    ∃ key ∈ k.names, p.key = some key ∧ (key ∈ settings.map (·.1) ∨ p.kind = .missing) := by
  have herror : read settings k default convert = .error p := by
    cases hr : read settings k default convert with
    | error q => rw [hr] at h; rw [List.mem_singleton.1 h]
    | ok a => rw [hr] at h; cases h
  rcases read_eq_error_iff.1 herror with ⟨key, d, kind, hfind, -, rfl⟩ | ⟨-, -, rfl⟩
  · obtain ⟨hmem, hname⟩ := mem_of_find? hfind
    exact ⟨key, hname, rfl, .inl (List.mem_map_of_mem hmem)⟩
  · refine ⟨k.preferred, ?_, rfl, .inr rfl⟩
    rw [Key.names, Key.preferred]
    cases k.other with
    | none => exact List.mem_singleton_self _
    | some other => exact List.mem_cons_self ..

/-! ## All settings -/

def problems (settings : Settings) : List Problem :=
  problemOf (read settings Key.labelColumn none (toColumn 0)) ++
    problemOf (read settings Key.commandColumn none (toColumn 0)) ++
    problemOf (read settings Key.keywordColumn none (toColumn 0)) ++
    problemOf (read settings Key.indentColumn none (toColumn 0)) ++
    problemOf (read settings Key.rightMargin none (toColumn 1)) ++
    problemOf (read settings Key.continuation none toContinuation) ++
    problemOf (read settings Key.letterCase (some LetterCase.asWritten) toLetterCase) ++
    (unusedKeys settings).map fun key => ⟨.unknownKey, some key⟩

/-- The settings say what the format has. The case may be left out. -/
structure Describes (settings : Settings) (f : Format) : Prop where
  labelColumn : Gives settings .labelColumn (toColumn 0) f.labelColumn
  commandColumn : Gives settings .commandColumn (toColumn 0) f.commandColumn
  keywordColumn : Gives settings .keywordColumn (toColumn 0) f.keywordColumn
  indentColumn : Gives settings .indentColumn (toColumn 0) f.indentColumn
  rightMargin : Gives settings .rightMargin (toColumn 1) f.rightMargin
  continuation : Gives settings .continuation toContinuation f.continuation
  letterCase : Gives settings .letterCase toLetterCase f.letterCase ∨
    Key.letterCase.find? settings = none ∧ LetterCase.asWritten = f.letterCase

inductive Clashes (settings : Settings) : Problem → Prop
  | noRoom {margin indent} : Gives settings .rightMargin (toColumn 1) margin →
      Gives settings .indentColumn (toColumn 0) indent → margin < indent - 1 + commentRoom →
        Clashes settings ⟨.noRoom margin indent, none⟩
  | marginAtCommand {margin command} : Gives settings .rightMargin (toColumn 1) margin →
      Gives settings .commandColumn (toColumn 0) command → margin ≤ command →
        Clashes settings ⟨.marginAtCommand margin command, none⟩

theorem Gives.unique {b : α} (ha : Gives settings k convert a) (hb : Gives settings k convert b) : a = b := by
  obtain ⟨_, _, hfind, ha⟩ := ha
  obtain ⟨_, _, hfind', hb⟩ := hb
  cases hfind.symm.trans hfind'
  exact Except.ok.inj (ha.symm.trans hb)

theorem gives_of_read (h : read settings k none convert = .ok a) : Gives settings k convert a :=
  (read_eq_ok_iff.1 h).resolve_right fun h => nomatch h.2

theorem problems_eq_nil_iff {settings : Settings} : problems settings = [] ↔
    (∃ a, read settings Key.labelColumn none (toColumn 0) = .ok a) ∧
      (∃ a, read settings Key.commandColumn none (toColumn 0) = .ok a) ∧
      (∃ a, read settings Key.keywordColumn none (toColumn 0) = .ok a) ∧
      (∃ a, read settings Key.indentColumn none (toColumn 0) = .ok a) ∧
      (∃ a, read settings Key.rightMargin none (toColumn 1) = .ok a) ∧
      (∃ a, read settings Key.continuation none toContinuation = .ok a) ∧
      (∃ a, read settings Key.letterCase (some LetterCase.asWritten) toLetterCase = .ok a) ∧
      unusedKeys settings = [] := by
  simp only [problems, List.append_eq_nil_iff, problemOf_eq_nil_iff, List.map_eq_nil_iff, and_assoc]

theorem Describes.problems_eq_nil {f : Format} (h : Describes settings f) (hunused : unusedKeys settings = []) :
    problems settings = [] :=
  problems_eq_nil_iff.2 ⟨⟨_, read_eq_ok_iff.2 (.inl h.labelColumn)⟩, ⟨_, read_eq_ok_iff.2 (.inl h.commandColumn)⟩,
    ⟨_, read_eq_ok_iff.2 (.inl h.keywordColumn)⟩, ⟨_, read_eq_ok_iff.2 (.inl h.indentColumn)⟩,
    ⟨_, read_eq_ok_iff.2 (.inl h.rightMargin)⟩, ⟨_, read_eq_ok_iff.2 (.inl h.continuation)⟩,
    ⟨_, read_eq_ok_iff.2 (h.letterCase.imp_right fun h => ⟨h.1, congrArg some h.2⟩)⟩, hunused⟩

theorem Describes.unique {f g : Format} (hf : Describes settings f) (hg : Describes settings g) : f = g := by
  have hcase : f.letterCase = g.letterCase := by
    rcases hf.letterCase with h | ⟨h, hf⟩ <;> rcases hg.letterCase with h' | ⟨h', hg⟩
    · exact h.unique h'
    · obtain ⟨_, _, h, -⟩ := h
      cases h'.symm.trans h
    · obtain ⟨_, _, h', -⟩ := h'
      cases h.symm.trans h'
    · exact hf.symm.trans hg
  have hlabel := hf.labelColumn.unique hg.labelColumn
  have hcommand := hf.commandColumn.unique hg.commandColumn
  have hkeyword := hf.keywordColumn.unique hg.keywordColumn
  have hindent := hf.indentColumn.unique hg.indentColumn
  have hmargin := hf.rightMargin.unique hg.rightMargin
  have hcontinuation := hf.continuation.unique hg.continuation
  cases f
  cases g
  simp_all only

theorem Describes.not_clashes {f : Format} (hf : Describes settings f) (h : Clashes settings p) : False := by
  cases h with
  | noRoom hm hi hlt =>
    rw [hm.unique hf.rightMargin, hi.unique hf.indentColumn] at hlt
    exact absurd f.indent_fits (by omega)
  | marginAtCommand hm hc hle =>
    rw [hm.unique hf.rightMargin, hc.unique hf.commandColumn] at hle
    exact absurd f.command_fits (by omega)

theorem key_of_mem_problems (h : p ∈ problems settings) :
    ∃ key, p.key = some key ∧ (key ∈ settings.map (·.1) ∨ p.kind = .missing ∧ ∃ k ∈ Key.all, key ∈ k.names) := by
  have hread : ∀ {β : Type} {k : Key} {default : Option β} {convert : Datum → Except ProblemKind β}, k ∈ Key.all →
      p ∈ problemOf (read settings k default convert) → ∃ key, p.key = some key ∧
        (key ∈ settings.map (·.1) ∨ p.kind = .missing ∧ ∃ k ∈ Key.all, key ∈ k.names) := by
    intro β k default convert hk hp
    obtain ⟨key, hname, hkey, hgiven⟩ := key_of_mem_problemOf hp
    exact ⟨key, hkey, hgiven.imp_right fun hmissing => ⟨hmissing, k, hk, hname⟩⟩
  simp only [problems, List.mem_append] at h
  rcases h with ((((((h | h) | h) | h) | h) | h) | h) | h
  iterate 7 exact hread (by simp [Key.all]) h
  obtain ⟨key, hkey, rfl⟩ := List.mem_map.1 h
  exact ⟨key, rfl, .inl (List.mem_filter.1 hkey).1⟩

end

end Settings

namespace Format

open Settings

section
variable {settings : Settings} {f : Format} {ps : List Problem} {p : Problem}

theorem ofSettings_of_problems (h : problems settings ≠ []) : ofSettings settings = .error (problems settings) := by
  unfold ofSettings
  dsimp only
  split
  · next hlabel hcommand hkeyword hindent hmargin hcontinuation hcase hunused =>
    exact absurd (problems_eq_nil_iff.2 ⟨⟨_, hlabel⟩, ⟨_, hcommand⟩, ⟨_, hkeyword⟩, ⟨_, hindent⟩, ⟨_, hmargin⟩,
      ⟨_, hcontinuation⟩, ⟨_, hcase⟩, List.map_eq_nil_iff.1 hunused⟩) h
  · rfl

theorem ofSettings_of_sound (h : problems settings = []) :
    unusedKeys settings = [] ∧ ((∃ f, ofSettings settings = .ok f ∧ Describes settings f) ∨
    ∃ p, ofSettings settings = .error [p] ∧ Clashes settings p) := by
  obtain ⟨⟨label, hlabel⟩, ⟨command, hcommand⟩, ⟨keyword, hkeyword⟩, ⟨indent, hindent⟩, ⟨margin, hmargin⟩,
    ⟨continuation, hcontinuation⟩, ⟨letterCase, hcase⟩, hunused⟩ := problems_eq_nil_iff.1 h
  refine ⟨hunused, ?_⟩
  unfold ofSettings
  simp only [hlabel, hcommand, hkeyword, hindent, hmargin, hcontinuation, hcase, hunused, List.map_nil]
  split
  · next hroom => exact .inr ⟨_, rfl, .noRoom (gives_of_read hmargin) (gives_of_read hindent) hroom⟩
  · split
    · next hle => exact .inr ⟨_, rfl, .marginAtCommand (gives_of_read hmargin) (gives_of_read hcommand) hle⟩
    · refine .inl ⟨_, rfl, gives_of_read hlabel, gives_of_read hcommand, gives_of_read hkeyword,
        gives_of_read hindent,
        gives_of_read hmargin, gives_of_read hcontinuation, ?_⟩
      exact (read_eq_ok_iff.1 hcase).imp_right fun h => ⟨h.1, Option.some.inj h.2⟩

/-- All settings are looked at: either every problem is told, or each setting is sound and the settings describe a
format or two of the columns do not go together. -/
theorem ofSettings_cases (settings : Settings) :
    problems settings ≠ [] ∧ ofSettings settings = .error (problems settings) ∨
      problems settings = [] ∧ ((∃ f, ofSettings settings = .ok f ∧ Describes settings f) ∨
        ∃ p, ofSettings settings = .error [p] ∧ Clashes settings p) := by
  by_cases h : problems settings = []
  · exact .inr ⟨h, (ofSettings_of_sound h).2⟩
  · exact .inl ⟨h, ofSettings_of_problems h⟩

theorem ofSettings_eq_ok_iff : ofSettings settings = .ok f ↔ Describes settings f ∧ unusedKeys settings = [] := by
  constructor
  · intro h
    by_cases hp : problems settings = []
    · obtain ⟨hunused, ⟨g, hg, hd⟩ | ⟨p, he, -⟩⟩ := ofSettings_of_sound hp
      · cases h.symm.trans hg
        exact ⟨hd, hunused⟩
      · cases h.symm.trans he
    · cases h.symm.trans (ofSettings_of_problems hp)
  · rintro ⟨h, hunused⟩
    obtain ⟨-, ⟨g, hg, hd⟩ | ⟨p, -, hclash⟩⟩ := ofSettings_of_sound (h.problems_eq_nil hunused)
    · rw [hg, hd.unique h]
    · exact (h.not_clashes hclash).elim

/-- Something is told whenever there is no format, and each problem that is told names a key that is given or has to
be given, except where two columns do not go together. -/
theorem key_of_ofSettings_eq_error (h : ofSettings settings = .error ps) : ps ≠ [] ∧ ∀ p ∈ ps,
    (∃ key, p.key = some key ∧
      (key ∈ settings.map (·.1) ∨ p.kind = .missing ∧ ∃ k ∈ Key.all, key ∈ k.names)) ∨
      p.key = none ∧ ps = [p] ∧ Clashes settings p := by
  rcases ofSettings_cases settings with ⟨hne, he⟩ | ⟨-, ⟨g, hg, -⟩ | ⟨q, he, hclash⟩⟩
  · cases h.symm.trans he
    exact ⟨hne, fun p hp => .inl (key_of_mem_problems hp)⟩
  · cases h.symm.trans hg
  · cases h.symm.trans he
    refine ⟨List.cons_ne_nil _ _, fun p hp => .inr ?_⟩
    rw [List.mem_singleton.1 hp]
    exact ⟨by cases hclash <;> rfl, rfl, hclash⟩

end

end Format

/-! ## Keys that name no setting -/

namespace Settings

section
variable {settings : Settings} {k : Key} {key : Text}

theorem fst_find? (k : Key) (settings : Settings) :
    (k.find? settings).map (·.1) = k.names.find? (· ∈ settings.map (·.1)) := by
  rw [Key.find?]
  induction k.names with
  | nil => rfl
  | cons name names ih =>
    rw [List.findSome?_cons, List.find?_cons]
    cases hfind : settings.find? (·.1 == name) with
    | none =>
      have hnot : name ∉ settings.map (·.1) := by
        intro hmem
        obtain ⟨e, he, hname⟩ := List.mem_map.1 hmem
        exact List.find?_eq_none.1 hfind e he (beq_iff_eq.2 hname)
      rw [decide_eq_false hnot]
      exact ih
    | some e =>
      have hname : e.1 = name := by simpa using List.find?_some hfind
      rw [decide_eq_true (hname ▸ List.mem_map_of_mem (List.mem_of_find?_eq_some hfind)), ← hname]
      rfl

theorem mem_keys_known : key ∈ settings.known.map (·.1) ↔
    key ∈ settings.map (·.1) ∧ ∃ k ∈ Key.all, key ∈ k.names := by
  simp only [known, List.mem_map, List.mem_filter, List.any_eq_true, List.contains_iff_mem]
  exact ⟨fun ⟨e, ⟨he, hk⟩, hkey⟩ => ⟨⟨e, he, hkey⟩, hkey ▸ hk⟩, fun ⟨⟨e, he, hkey⟩, hk⟩ =>
    ⟨e, ⟨he, hkey ▸ hk⟩, hkey⟩⟩

theorem find?_known (hk : k ∈ Key.all) : k.find? settings.known = k.find? settings := by
  have hname : ∀ name ∈ k.names, settings.known.find? (·.1 == name) = settings.find? (·.1 == name) := by
    intro name hname
    rw [known, List.find?_filter]
    congr 1
    funext e
    by_cases he : e.1 = name
    · have hany : (Key.all.any fun k => k.names.contains e.1) = true :=
        List.any_eq_true.2 ⟨k, hk, List.contains_iff_mem.2 (he ▸ hname)⟩
      simp only [hany, true_and, Bool.decide_eq_true]
    · simp [he]
  rw [Key.find?, Key.find?]
  generalize k.names = names at hname
  induction names with
  | nil => rfl
  | cons name names ih =>
    obtain ⟨hname, hnames⟩ := List.forall_mem_cons.1 hname
    rw [List.findSome?_cons, List.findSome?_cons, hname, ih hnames]

theorem unusedKeys_eq_nil_iff : unusedKeys settings = [] ↔
    ∀ key ∈ settings.map (·.1), ∃ k ∈ Key.all, k.names.find? (· ∈ settings.map (·.1)) = some key := by
  simp only [unusedKeys, List.filter_eq_nil_iff, fst_find?, Bool.not_eq_true', Bool.not_eq_false,
    List.contains_iff_mem, List.mem_filterMap]

theorem unusedKeys_known_eq_nil_iff : unusedKeys settings.known = [] ↔
    ∀ k ∈ Key.all, ∀ other ∈ k.other, other ∈ settings.map (·.1) → k.name ∉ settings.map (·.1) := by
  have hdistinct : ∀ k ∈ Key.all, ∀ l ∈ Key.all, k.name ∈ l.names → l.names = k.names := by decide
  have hother : ∀ k ∈ Key.all, ∀ other ∈ k.other, other ≠ k.name := by decide
  rw [unusedKeys_eq_nil_iff]
  constructor
  · intro h k hk other ho hgiven hname
    have hnames : k.names = [other, k.name] := by rw [Key.names, Option.mem_def.1 ho]; rfl
    have hmem : ∀ key ∈ k.names, key ∈ settings.map (·.1) → key ∈ settings.known.map (·.1) :=
      fun key hkey hgiven => mem_keys_known.2 ⟨hgiven, k, hk, hkey⟩
    obtain ⟨l, hl, hfind⟩ := h _ (hmem _ (by simp [hnames]) hname)
    have hfirst : [other, k.name].find? (· ∈ settings.known.map (·.1)) = some other :=
      List.find?_cons_of_pos (decide_eq_true (hmem _ (by simp [hnames]) hgiven))
    rw [hdistinct k hk l hl (List.mem_of_find?_eq_some hfind), hnames, hfirst] at hfind
    exact hother k hk other ho (Option.some.inj hfind)
  · intro h key hkey
    obtain ⟨hgiven, k, hk, hname⟩ := mem_keys_known.1 hkey
    refine ⟨k, hk, ?_⟩
    have hhead := h k hk
    rw [Key.names] at hname ⊢
    cases ho : k.other with
    | none =>
      rw [ho] at hname
      cases List.mem_singleton.1 hname
      exact List.find?_cons_of_pos (decide_eq_true hkey)
    | some other =>
      rw [ho] at hname
      rcases List.mem_cons.1 hname with rfl | hname
      · exact List.find?_cons_of_pos (decide_eq_true hkey)
      · cases List.mem_singleton.1 hname
        have hnot : other ∉ settings.known.map (·.1) :=
          fun hmem => hhead other ho (mem_keys_known.1 hmem).1 hgiven
        exact (List.find?_cons_of_neg (by simpa using hnot)).trans (List.find?_cons_of_pos (decide_eq_true hkey))

theorem Describes.congr {settings' : Settings} {f : Format} (hd : Describes settings f)
    (h : ∀ k ∈ Key.all, k.find? settings' = k.find? settings) : Describes settings' f := by
  have hgives : ∀ {α : Type} {k : Key} {convert : Datum → Except ProblemKind α} {a : α}, k ∈ Key.all →
      Gives settings k convert a → Gives settings' k convert a := fun hk hg => by rwa [Gives, h _ hk]
  refine ⟨hgives ?_ hd.labelColumn, hgives ?_ hd.commandColumn, hgives ?_ hd.keywordColumn,
    hgives ?_ hd.indentColumn,
    hgives ?_ hd.rightMargin, hgives ?_ hd.continuation, hd.letterCase.imp (hgives ?_) fun hnone => ?_⟩
  iterate 7 simp [Key.all]
  rwa [h _ (by simp [Key.all])]

theorem describes_known_iff {f : Format} : Describes settings.known f ↔ Describes settings f :=
  ⟨fun h => h.congr fun _ hk => (find?_known hk).symm, fun h => h.congr fun _ hk => find?_known hk⟩

end

end Settings

namespace Format

open Settings

/-- A table describes a format whatever else is in it, unless a setting is in it twice. -/
theorem ofTable_eq_ok_iff {source : Text} {settings : Settings} {f : Format} :
    ofTable source settings = .ok f ↔ Describes settings f ∧
      ∀ k ∈ Key.all, ∀ other ∈ k.other, other ∈ settings.map (·.1) → k.name ∉ settings.map (·.1) := by
  rw [← unusedKeys_known_eq_nil_iff, ← describes_known_iff, ← ofSettings_eq_ok_iff, ofTable]
  cases ofSettings settings.known with
  | error ps => exact iff_of_false nofun nofun
  | ok g => rw [Except.ok.injEq, Except.ok.injEq]

end Format

/-! ## Tables of a format -/

namespace Settings

inductive SpellsNat (n : Nat) : Datum → Prop
  | int : SpellsNat n (.int n)
  | decimal {places} : SpellsNat n (.decimal (n * Datum.scale places) places)
  | text {s s' k} : (∀ c ∈ s, isPadding c = true) → (∀ c ∈ s', isPadding c = true) →
      SpellsNat n (.text (s ++ (List.replicate k '0' ++ Nat.toDigits 10 n) ++ s'))

def SpellsCase (l : LetterCase) (d : Datum) : Prop :=
  ∃ t : Text, d = .text t ∧ (t.normal = l.name ∨ '*' :: t.normal = l.name)

section
variable {settings : Settings} {k : Key} {key : Text} {d : Datum} {n least : Nat} {l : LetterCase}

theorem toInt_of_spells (h : SpellsNat n d) : toInt d = .ok n := by
  cases h with
  | int => rfl
  | @decimal places =>
    have hpos : (0 : Int) < Datum.scale places := Int.natCast_pos.2 (Nat.pow_pos (by decide))
    rw [toInt]
    simp only [Int.mul_emod_left, if_true, Int.mul_ediv_cancel _ (Int.ne_of_gt hpos)]
  | text hs hs' =>
    rw [toInt, number?_digits hs hs']

theorem toColumn_of_spells (h : SpellsNat n d) (hl : least ≤ n) : toColumn least d = .ok n := by
  rw [toColumn, toInt_of_spells h]
  simp only [Int.ofNat_lt, Nat.not_lt.2 hl, if_false, Int.toNat_natCast]

theorem toLetterCase_of_spells (h : SpellsCase l d) : toLetterCase d = .ok l := by
  obtain ⟨t, rfl, ht⟩ := h
  rw [toLetterCase, ← Text.normal]
  rcases ht with ht | ht
  · rw [ht]
    cases l <;> rfl
  · cases l with
    | upper => rw [(List.cons.inj ht).2]; rfl
    | lower => rw [(List.cons.inj ht).2]; rfl
    | asWritten => rw [(List.cons.inj ht).2]; rfl

theorem gives_of_spells (h : k.find? settings = some (key, d)) (hd : SpellsNat n d) (hl : least ≤ n) :
    Gives settings k (toColumn least) n :=
  ⟨key, d, h, toColumn_of_spells hd hl⟩

end

def table (label command keyword indent margin continuation letterCase : Datum) : Settings :=
  [(Key.labelColumn.name, label), (Key.commandColumn.name, command), (Key.keywordColumn.name, keyword),
    (Key.indentColumn.name, indent), (Key.rightMargin.name, margin), (Key.continuation.name, continuation),
    (Key.letterCase.name, letterCase)]

end Settings

namespace Format

open Settings

section
variable {f : Format} {source : Text} {label command keyword indent margin letterCase : Datum}
  (hlabel : SpellsNat f.labelColumn label) (hcommand : SpellsNat f.commandColumn command)
  (hkeyword : SpellsNat f.keywordColumn keyword) (hindent : SpellsNat f.indentColumn indent)
  (hmargin : SpellsNat f.rightMargin margin) (hcase : SpellsCase f.letterCase letterCase)
include hlabel hcommand hkeyword hindent hmargin hcase

theorem describes_table :
    Describes (table label command keyword indent margin (.text [f.continuation]) letterCase) f := by
  have hroom : 1 ≤ f.rightMargin := Nat.lt_of_le_of_lt (Nat.zero_le _) f.command_fits
  exact ⟨gives_of_spells rfl hlabel (Nat.zero_le _), gives_of_spells rfl hcommand (Nat.zero_le _),
    gives_of_spells rfl hkeyword (Nat.zero_le _), gives_of_spells rfl hindent (Nat.zero_le _),
    gives_of_spells rfl hmargin hroom, ⟨_, _, rfl, rfl⟩, .inl ⟨_, _, rfl, toLetterCase_of_spells hcase⟩⟩

theorem ofTable_table :
    ofTable source (table label command keyword indent margin (.text [f.continuation]) letterCase) = .ok f := by
  refine ofTable_eq_ok_iff.2 ⟨describes_table hlabel hcommand hkeyword hindent hmargin hcase, ?_⟩
  change ∀ k ∈ Key.all, ∀ other ∈ k.other, other ∈ Key.all.map (·.name) → k.name ∉ Key.all.map (·.name)
  decide

theorem ofPreferences_preferences :
    ofPreferences [("formatLabelPosition".toList, label), ("formatCmdPosition".toList, command),
      ("formatKwdPosition".toList, keyword), ("formatContinuePosition".toList, indent),
      ("formatRightMargin".toList, margin), ("formatCase".toList, letterCase),
      ("continuationChar".toList, .text [f.continuation])] = .ok f := by
  let settings : Settings := [(Key.labelColumn.name, label), (Key.commandColumn.name, command),
    (Key.keywordColumn.name, keyword), (Key.indentColumn.name, indent), (Key.rightMargin.name, margin),
    (Key.letterCase.name, letterCase), (Key.continuation.name, .text [f.continuation])]
  change ofTable "prompter settings".toList settings = .ok f
  refine ofTable_eq_ok_iff.2 ⟨(describes_table hlabel hcommand hkeyword hindent hmargin hcase).congr ?_, ?_⟩
  · simp only [Key.all, List.forall_mem_cons]
    exact ⟨rfl, rfl, rfl, rfl, rfl, rfl, rfl, nofun⟩
  · let names := [Key.labelColumn.name, Key.commandColumn.name, Key.keywordColumn.name, Key.indentColumn.name,
      Key.rightMargin.name, Key.letterCase.name, Key.continuation.name]
    change ∀ k ∈ Key.all, ∀ other ∈ k.other, other ∈ names → k.name ∉ names
    decide

end

theorem ofPreferences_of_no_continuation {preferences : Settings}
    (h : "continuationChar".toList ∉ preferences.map (·.1)) :
    ofPreferences (preferences ++ [("continuationChar".toList, .text ['+'])]) = ofPreferences preferences := by
  have hnone : Datum.field? preferences "continuationChar".toList = none := by
    rw [Datum.field?, Option.map_eq_none_iff, List.find?_eq_none]
    exact fun e he hkey => h (List.mem_map.2 ⟨e, he, beq_iff_eq.1 hkey⟩)
  have hfield : ∀ key, key ≠ "continuationChar".toList →
      Datum.field? (preferences ++ [("continuationChar".toList, .text ['+'])]) key =
      Datum.field? preferences key := by
    intro key hkey
    rw [Datum.field?, List.find?_append, List.find?_singleton, beq_false_of_ne (Ne.symm hkey), if_neg (by decide),
      Option.or_none, Datum.field?]
  have hnames : ∀ e ∈ preferenceKeys, e.1 ≠ "continuationChar".toList := by
    simp only [preferenceKeys, List.forall_mem_cons]
    decide
  have hgiven : Datum.field? (preferences ++ [("continuationChar".toList, .text ['+'])]) "continuationChar".toList =
      some (.text ['+']) := by
    rw [Datum.field?, List.find?_append, Option.map_eq_none_iff.1 hnone]
    rfl
  rw [ofPreferences, ofPreferences, hgiven, hnone]
  congr 2
  refine List.filterMap_congr fun e he => ?_
  simp only [hfield e.1 (hnames e he)]

end Format

end ControlLanguage
