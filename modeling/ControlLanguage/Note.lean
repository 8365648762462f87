import ControlLanguage.Text.Basic

/-!
# Notes

While a form is read or written, or lines are laid out, some things are
worth a note: what was left out and why, and what had to be cut. `Logged`
carries the notes beside a result, in the order in which they were made.
-/

namespace ControlLanguage

inductive Note
  | unnamedPositional (name : Text)
  | undefinedParameter (name command : Text)
  | partCount (keyword : Text) (found declared : Nat)
  | noValue (keyword : Text)
  | emptyText (keyword : Text)
  | unchangedDefault (keyword default : Text)
  | unitCut (unit : Text) (indent margin : Nat)
  | wordCut (word : Text) (margin : Nat)
  deriving DecidableEq, Repr

namespace Note

inductive Level
  | debug | warning
  deriving DecidableEq, Repr

inductive Argument
  | text (t : Text)
  | number (n : Nat)
  deriving DecidableEq, Repr

/-- A cut is worth a warning, since the lines no longer follow their layout. -/
def level : Note → Level
  | unitCut .. | wordCut .. => .warning
  | _ => .debug

/-- The text of a note, with a place for each argument. -/
def template : Note → String
  | unnamedPositional _ => "Skipping unnamed positional value %s"
  | undefinedParameter .. => "Skipping parameter %s: not defined for %s"
  | partCount .. => "Value of %s has %d parts, schema declares %d"
  | noValue _ => "Skipping %s: no value"
  | emptyText _ => "Skipping %s: value renders empty"
  | unchangedDefault .. => "Skipping %s: unchanged default %s"
  | unitCut .. => "Unit %r does not fit between columns %d and %d; splitting it"
  | wordCut .. => "Comment word %r does not fit before column %d; splitting it"

def arguments : Note → List Argument
  | unnamedPositional name => [.text name]
  | undefinedParameter name command => [.text name, .text command]
  | partCount keyword found declared => [.text keyword, .number found, .number declared]
  | noValue keyword => [.text keyword]
  | emptyText keyword => [.text keyword]
  | unchangedDefault keyword default => [.text keyword, .text default]
  | unitCut unit indent margin => [.text unit, .number indent, .number margin]
  | wordCut word margin => [.text word, .number margin]

end Note

structure Logged (α : Type) where
  notes : List Note
  value : α

namespace Logged

variable {α β : Type}

def bind (x : Logged α) (f : α → Logged β) : Logged β :=
  ⟨x.notes ++ (f x.value).notes, (f x.value).value⟩

instance : Monad Logged where
  pure a := ⟨[], a⟩
  bind := bind

def note (n : Note) : Logged Unit := ⟨[n], ()⟩

@[simp] theorem notes_pure (a : α) : (pure a : Logged α).notes = [] := rfl

@[simp] theorem value_pure (a : α) : (pure a : Logged α).value = a := rfl

@[simp] theorem notes_bind (x : Logged α) (f : α → Logged β) :
    (x >>= f).notes = x.notes ++ (f x.value).notes := rfl

@[simp] theorem value_bind (x : Logged α) (f : α → Logged β) :
    (x >>= f).value = (f x.value).value := rfl

theorem value_run_bind {ε : Type} {x : ExceptT ε Logged α} {f : α → ExceptT ε Logged β} {a : α}
    (h : x.run.value = .ok a) : (x >>= f).run.value = (f a).run.value := by
  rw [ExceptT.run_bind, value_bind, h]

theorem value_run_bind_eq_ok_iff {ε : Type} {x : ExceptT ε Logged α} {f : α → ExceptT ε Logged β} {b : β} :
    (x >>= f).run.value = .ok b ↔ ∃ a, x.run.value = .ok a ∧ (f a).run.value = .ok b := by
  rw [ExceptT.run_bind, value_bind]
  cases x.run.value with
  | error => exact iff_of_false nofun nofun
  | ok a => exact ⟨fun h => ⟨a, rfl, h⟩, fun ⟨_, ha, h⟩ => by cases ha; exact h⟩

theorem value_run_bind_congr {ε : Type} {x y : ExceptT ε Logged α} {f g : α → ExceptT ε Logged β}
    (hx : x.run.value = y.run.value) (hf : ∀ a, (f a).run.value = (g a).run.value) :
    (x >>= f).run.value = (y >>= g).run.value := by
  rw [ExceptT.run_bind, ExceptT.run_bind, value_bind, value_bind, hx]
  cases y.run.value with
  | error => rfl
  | ok a => exact hf a

end Logged

end ControlLanguage
