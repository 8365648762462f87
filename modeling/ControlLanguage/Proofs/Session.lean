import ControlLanguage.Session
import ControlLanguage.Proofs.Case.Upper
import ControlLanguage.Proofs.Positional

/-!
# What a session keeps

`Does` says what a step does when it succeeds. It changes at most one part of
the state, and a step that fails changes none, so the steps that fail can be
left out of a session: the others answer the same, and the state at the end
is the same (`run_succeeding`, `final_succeeding`). At every time no keyword
has two forms, and the names in the command are in upper case or tell the
position of their value: `sound_final`.
-/

namespace ControlLanguage

/-! ## Names in upper case -/

namespace Call

section
variable {ν : Type} {b : Binding ν} {bs : List (Binding ν)} {c : Call ν} {taken keywords : List Text}

def IsNamed (b : Binding ν) : Prop := b.isPositional = true ∨ b.name.upper = b.name

def InUpper (c : Call ν) : Prop := c.name.upper = c.name ∧ ∀ b ∈ c.bindings, IsNamed b

theorem isNamed_of_mem_assign (h : ∀ b ∈ bs, IsNamed b) (hb : b ∈ assign taken keywords bs) : IsNamed b := by
  induction bs generalizing keywords with
  | nil => simp only [assign, List.not_mem_nil] at hb
  | cons d bs ih =>
    obtain ⟨hd, hbs⟩ := List.forall_mem_cons.1 h
    simp only [assign] at hb
    split at hb
    · cases keywords with
      | nil => exact (List.mem_cons.1 hb).elim (fun h => h ▸ hd) (ih hbs)
      | cons k ks =>
        rcases List.mem_cons.1 hb with rfl | hb
        · split
          · exact hd
          · exact .inr (Text.upper_upper k)
        · exact ih hbs hb
    · exact (List.mem_cons.1 hb).elim (fun h => h ▸ hd) (ih hbs)

theorem InUpper.assignKeywords (h : c.InUpper) (limit : Option Int) : (c.assignKeywords keywords limit).InUpper :=
  ⟨h.1, fun _ => isNamed_of_mem_assign h.2⟩

end

end Call

theorem Value.BindingsOf.isNamed {seen : Bool} {n : Nat} {ts : List Token} {bs : List (Binding Value)}
    (h : BindingsOf seen n ts bs) : ∀ b ∈ bs, Call.IsNamed b := by
  induction h with
  | nil => exact nofun
  | space _ _ ih => exact ih
  | groups _ _ _ _ _ _ _ ih => exact List.forall_mem_cons.2 ⟨.inr (Text.upper_upper _), ih⟩
  | call _ _ _ _ _ _ _ _ ih => exact List.forall_mem_cons.2 ⟨.inr (Text.upper_upper _), ih⟩
  | positional _ _ _ _ ih => exact List.forall_mem_cons.2 ⟨.inl (isPlaceholder_placeholder _), ih⟩

theorem Command.inUpper_of_parse {text : Text} {c : Command} (h : Command.parse text = .ok c) : c.InUpper := by
  obtain ⟨_, _, name, _, m, _, _, hread, hname, hbindings⟩ := exists_readFrom h
  refine ⟨?_, by rw [hbindings]; exact hread.bindings.isNamed⟩
  rw [hname, hread.name_eq, Text.upper_upper]

theorem Call.nodup_of_readBindings {ν : Type} {schemas : Entries Schema} {text? : ν → Option Text} {name : Text}
    {bs : List (Binding ν)} {values es : Entries Form}
    (h : (readBindings schemas text? name values bs).run.value = .ok es) (hn : (values.map (·.1)).Nodup) :
    (es.map (·.1)).Nodup := by
  induction bs generalizing values with
  | nil => cases h; exact hn
  | cons b bs ih =>
    rw [readBindings] at h
    split at h
    · obtain ⟨_, -, h⟩ := Logged.value_run_bind_eq_ok_iff.1 h
      exact ih h hn
    · split at h
      · obtain ⟨_, -, h⟩ := Logged.value_run_bind_eq_ok_iff.1 h
        exact ih h hn
      · split at h
        · cases h
        · split at h
          · cases h
          · exact ih h (Entries.nodup_insert hn)

namespace Session

section
variable {schemas : List Schema} {s s' : State} {t : Step} {ts us : List Step} {a : Answer}

/-! ## Steps -/

def State.form (s : State) (c : Command) : CommandForm :=
  { name := c.name, values := s.values, touched := s.touched, label := c.label }

/-- What a step does and answers if it succeeds. -/
inductive Does (schemas : List Schema) (s : State) : Step → State → Answer → Prop
  | parse {text c} : Command.parse (text.getD s.text) = .ok c →
      Does schemas s (.parse text) { s with command := some c } (.command c)
  | assignKeywords {keywords limit c} : s.command = some c →
      Does schemas s (.assignKeywords keywords limit) { s with command := some (c.assignKeywords keywords limit) }
        (.text (c.assignKeywords keywords limit).text)
  | readForms {c values} : s.command = some c → (c.forms (Schema.byKeyword schemas)).run.value = .ok values →
      Does schemas s .readForms { s with values } (.values values)
  | set {keyword value} : Does schemas s (.set keyword value) { s with values := s.values.insert keyword value }
      (.values (s.values.insert keyword value))
  | remove {keyword} : Does schemas s (.remove keyword) { s with values := s.values.erase keyword }
      (.values (s.values.erase keyword))
  | touch {keywords} : Does schemas s (.touch keywords) { s with touched := s.touched ++ keywords }
      (.keywords (s.touched ++ keywords))
  | touchAll {c} : s.command = some c → Does schemas s .touchAll { s with touched := c.keywords }
      (.keywords c.keywords)
  | write {c text} : s.command = some c → ((s.form c).write schemas).run.value = .ok text →
      Does schemas s .write { s with text } (.text text)
  | layout {settings ofText f c} : Format.ofTable "mapping".toList settings = .ok f →
      (if ofText then Command.parse s.text = .ok c else s.command = some c) →
        Does schemas s (.layout settings ofText) s (.lines (f.layout c).value)

theorem requireCommand_eq_ok_iff {c : Command} : s.requireCommand = .ok c ↔ s.command = some c := by
  rw [State.requireCommand]
  cases s.command with
  | none => exact iff_of_false nofun nofun
  | some d => rw [Except.ok.injEq, Option.some.injEq]

theorem parse_eq_ok_iff {text : Text} {c : Command} : parse text = .ok c ↔ Command.parse text = .ok c := by
  rw [parse]
  cases Command.parse text with
  | error e => exact iff_of_false nofun nofun
  | ok d => rw [Except.ok.injEq, Except.ok.injEq]

theorem orMissing_eq_ok_iff {α : Type} {x : ExceptT Missing Logged α} {b : α} :
    (orMissing x).run.value = .ok b ↔ x.run.value = .ok b := by
  change Except.mapError Failure.missing x.run.value = .ok b ↔ _
  cases x.run.value with
  | error e => exact iff_of_false nofun nofun
  | ok d => exact ⟨fun h => by cases h; rfl, fun h => by cases h; rfl⟩

theorem step_eq_ok_iff : (step schemas s t).run.value = .ok (s', a) ↔ Does schemas s t s' a := by
  constructor
  · intro h
    cases t with
    | parse text =>
      obtain ⟨c, hc, ⟨⟩⟩ := Logged.value_run_bind_eq_ok_iff.1 h
      exact .parse (parse_eq_ok_iff.1 hc)
    | assignKeywords keywords limit =>
      obtain ⟨c, hc, ⟨⟩⟩ := Logged.value_run_bind_eq_ok_iff.1 h
      exact .assignKeywords (requireCommand_eq_ok_iff.1 hc)
    | readForms =>
      obtain ⟨c, hc, h⟩ := Logged.value_run_bind_eq_ok_iff.1 h
      obtain ⟨values, hv, ⟨⟩⟩ := Logged.value_run_bind_eq_ok_iff.1 h
      exact .readForms (requireCommand_eq_ok_iff.1 hc) (orMissing_eq_ok_iff.1 hv)
    | set keyword value => cases h; exact .set
    | remove keyword => cases h; exact .remove
    | touch keywords => cases h; exact .touch
    | touchAll =>
      obtain ⟨c, hc, ⟨⟩⟩ := Logged.value_run_bind_eq_ok_iff.1 h
      exact .touchAll (requireCommand_eq_ok_iff.1 hc)
    | write =>
      obtain ⟨c, hc, h⟩ := Logged.value_run_bind_eq_ok_iff.1 h
      obtain ⟨text, ht, ⟨⟩⟩ := Logged.value_run_bind_eq_ok_iff.1 h
      exact .write (requireCommand_eq_ok_iff.1 hc) (orMissing_eq_ok_iff.1 ht)
    | layout settings ofText =>
      rw [step] at h
      cases hf : Format.ofTable "mapping".toList settings with
      | error e => rw [hf] at h; cases h
      | ok f =>
        rw [hf] at h
        obtain ⟨_, ⟨⟩, h⟩ := Logged.value_run_bind_eq_ok_iff.1 h
        cases ofText with
        | true =>
          obtain ⟨c, hc, h⟩ := Logged.value_run_bind_eq_ok_iff.1 h
          obtain ⟨_, ⟨⟩, ⟨⟩⟩ := Logged.value_run_bind_eq_ok_iff.1 h
          exact .layout hf (parse_eq_ok_iff.1 hc)
        | false =>
          obtain ⟨c, hc, h⟩ := Logged.value_run_bind_eq_ok_iff.1 h
          obtain ⟨_, ⟨⟩, ⟨⟩⟩ := Logged.value_run_bind_eq_ok_iff.1 h
          exact .layout hf (requireCommand_eq_ok_iff.1 hc)
  · intro h
    cases h with
    | parse hc => exact Logged.value_run_bind_eq_ok_iff.2 ⟨_, parse_eq_ok_iff.2 hc, rfl⟩
    | assignKeywords hc => exact Logged.value_run_bind_eq_ok_iff.2 ⟨_, requireCommand_eq_ok_iff.2 hc, rfl⟩
    | readForms hc hv =>
      exact Logged.value_run_bind_eq_ok_iff.2 ⟨_, requireCommand_eq_ok_iff.2 hc,
        Logged.value_run_bind_eq_ok_iff.2 ⟨_, orMissing_eq_ok_iff.2 hv, rfl⟩⟩
    | set => rfl
    | remove => rfl
    | touch => rfl
    | touchAll hc => exact Logged.value_run_bind_eq_ok_iff.2 ⟨_, requireCommand_eq_ok_iff.2 hc, rfl⟩
    | write hc ht =>
      exact Logged.value_run_bind_eq_ok_iff.2 ⟨_, requireCommand_eq_ok_iff.2 hc,
        Logged.value_run_bind_eq_ok_iff.2 ⟨_, orMissing_eq_ok_iff.2 ht, rfl⟩⟩
    | @layout _ ofText _ _ hf hc =>
      rw [step, hf]
      refine Logged.value_run_bind_eq_ok_iff.2 ⟨_, rfl, ?_⟩
      cases ofText with
      | true =>
        exact Logged.value_run_bind_eq_ok_iff.2 ⟨_, parse_eq_ok_iff.2 hc,
          Logged.value_run_bind_eq_ok_iff.2 ⟨_, rfl, rfl⟩⟩
      | false =>
        exact Logged.value_run_bind_eq_ok_iff.2 ⟨_, requireCommand_eq_ok_iff.2 hc,
          Logged.value_run_bind_eq_ok_iff.2 ⟨_, rfl, rfl⟩⟩

/-! ## Failing steps -/

def next (schemas : List Schema) (s : State) (t : Step) : State := s.after (step schemas s t).run

def succeeds (schemas : List Schema) (s : State) (t : Step) : Bool := (step schemas s t).run.value.isOk

theorem next_eq_of_does (h : Does schemas s t s' a) : next schemas s t = s' := by
  rw [next, State.after, step_eq_ok_iff.2 h]

theorem next_of_not_succeeds (h : succeeds schemas s t = false) : next schemas s t = s := by
  rw [succeeds] at h
  rw [next, State.after]
  cases hv : (step schemas s t).run.value with
  | error e => rfl
  | ok p => rw [hv] at h; cases h

/-- A step does something or it changes nothing. -/
theorem next_cases (schemas : List Schema) (s : State) (t : Step) :
    (∃ a, Does schemas s t (next schemas s t) a) ∨ succeeds schemas s t = false ∧ next schemas s t = s := by
  cases hv : (step schemas s t).run.value with
  | error e =>
    have hs : succeeds schemas s t = false := by rw [succeeds, hv]; rfl
    exact .inr ⟨hs, next_of_not_succeeds hs⟩
  | ok p =>
    have hd : Does schemas s t p.1 p.2 := step_eq_ok_iff.1 hv
    exact .inl ⟨p.2, (next_eq_of_does hd).symm ▸ hd⟩

def final (schemas : List Schema) (s : State) (ts : List Step) : State := ts.foldl (next schemas) s

theorem run_append : run schemas s (ts ++ us) = run schemas s ts ++ run schemas (final schemas s ts) us := by
  induction ts generalizing s with
  | nil => rfl
  | cons t ts ih => rw [List.cons_append, run, run, ← next, ih, List.cons_append]; rfl

def succeeding (schemas : List Schema) (s : State) : List Step → List Step
  | [] => []
  | t :: ts =>
    if succeeds schemas s t then t :: succeeding schemas (next schemas s t) ts
    else succeeding schemas (next schemas s t) ts

/-- The steps that fail do not matter for the state. -/
theorem final_succeeding : final schemas s (succeeding schemas s ts) = final schemas s ts := by
  induction ts generalizing s with
  | nil => rfl
  | cons t ts ih =>
    rw [succeeding]
    split
    · exact ih
    · next h =>
      rw [next_of_not_succeeds (by simpa using h), ih]
      change final schemas s ts = final schemas (next schemas s t) ts
      rw [next_of_not_succeeds (by simpa using h)]

/-- Without the steps that fail the others answer the same. -/
theorem run_succeeding :
    run schemas s (succeeding schemas s ts) = (run schemas s ts).filter (·.value.isOk) := by
  induction ts generalizing s with
  | nil => rfl
  | cons t ts ih =>
    rw [succeeding, run, ← next, List.filter_cons]
    have hok : ((step schemas s t).run.value.map (·.2)).isOk = succeeds schemas s t := by
      rw [succeeds]
      cases (step schemas s t).run.value <;> rfl
    rw [hok]
    split
    · rw [run, ← next, ih]
    · next h =>
      rw [← ih, next_of_not_succeeds (by simpa using h)]

/-! ## Parts of the state -/

inductive Part
  | command | forms | touched | text
  deriving DecidableEq

/-- The part of the state that a step is about. -/
def Step.part? : Step → Option Part
  | .parse _ | .assignKeywords .. => some .command
  | .readForms | .set .. | .remove _ => some .forms
  | .touch _ | .touchAll => some .touched
  | .write => some .text
  | .layout .. => none

def State.Agree (s s' : State) : Part → Prop
  | .command => s'.command = s.command
  | .forms => s'.values = s.values
  | .touched => s'.touched = s.touched
  | .text => s'.text = s.text

theorem agree_next {p : Part} (h : t.part? ≠ some p) : s.Agree (next schemas s t) p := by
  rcases next_cases schemas s t with ⟨a, hd⟩ | ⟨-, hs⟩
  · generalize next schemas s t = s' at hd
    cases hd <;> cases p <;> first | rfl | exact absurd rfl h
  · rw [hs]
    cases p <;> rfl

theorem agree_final {p : Part} (h : ∀ t ∈ ts, t.part? ≠ some p) : s.Agree (final schemas s ts) p := by
  induction ts generalizing s with
  | nil => cases p <;> rfl
  | cons t ts ih =>
    obtain ⟨ht, hts⟩ := List.forall_mem_cons.1 h
    have hnext : s.Agree (next schemas s t) p := agree_next ht
    have hrest : (next schemas s t).Agree (final schemas s (t :: ts)) p := ih hts
    cases p <;> exact hrest.trans hnext

/-! ## Sound states -/

/-- No keyword has two forms, and the names in the command are in upper case. -/
structure State.Sound (s : State) : Prop where
  forms : (s.values.map (·.1)).Nodup
  command : ∀ c ∈ s.command, c.InUpper

theorem sound_init : ({} : State).Sound := ⟨List.nodup_nil, nofun⟩

theorem sound_of_does (hs : s.Sound) (h : Does schemas s t s' a) : s'.Sound := by
  cases h with
  | parse hc => exact ⟨hs.forms, fun _ hd => Option.some.inj hd ▸ Command.inUpper_of_parse hc⟩
  | assignKeywords hc => exact ⟨hs.forms, fun _ hd => Option.some.inj hd ▸ (hs.command _ hc).assignKeywords _⟩
  | readForms _ hv => exact ⟨Call.nodup_of_readBindings hv List.nodup_nil, hs.command⟩
  | set => exact ⟨Entries.nodup_insert hs.forms, hs.command⟩
  | remove => exact ⟨hs.forms.sublist (List.filter_sublist.map _), hs.command⟩
  | touch => exact ⟨hs.forms, hs.command⟩
  | touchAll => exact ⟨hs.forms, hs.command⟩
  | write => exact ⟨hs.forms, hs.command⟩
  | layout => exact hs

theorem sound_next (hs : s.Sound) (t : Step) : (next schemas s t).Sound := by
  rcases next_cases schemas s t with ⟨a, hd⟩ | ⟨-, h⟩
  · exact sound_of_does hs hd
  · rwa [h]

theorem sound_final (hs : s.Sound) (ts : List Step) : (final schemas s ts).Sound := by
  induction ts generalizing s with
  | nil => exact hs
  | cons t ts ih => exact ih (sound_next hs t)

end

end Session

end ControlLanguage
