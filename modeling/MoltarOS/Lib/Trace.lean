import Mathlib.Control.Monad.Writer
import Mathlib.Data.List.Basic

/-!
# Computations that report

A computation in the writer monad gives a value and reports events on the way. `value` forgets the events, and
`AllEvents P` says that each of them satisfies `P`; both go through `>>=`, so that they can be read off a program.
-/

namespace MoltarOS.Lib

variable {ε α β : Type} {P : ε → Prop}

/-- What is computed, with the events in order. -/
abbrev Reports (ε α : Type) := Writer (List ε) α

namespace Reports

/-- Report an event. -/
def report (e : ε) : Reports ε Unit := MonadWriter.tell [e]

/-- What is computed. -/
def value (x : Reports ε α) : α := (WriterT.run x).run.1

/-- The events. -/
def events (x : Reports ε α) : List ε := (WriterT.run x).run.2

/-- Each event satisfies `P`. -/
def AllEvents (P : ε → Prop) (x : Reports ε α) : Prop := ∀ e ∈ x.events, P e

instance [DecidablePred P] (x : Reports ε α) : Decidable (x.AllEvents P) :=
  inferInstanceAs (Decidable (∀ e ∈ x.events, P e))

@[simp] theorem value_pure (a : α) : value (pure a : Reports ε α) = a := rfl

@[simp] theorem value_bind (x : Reports ε α) (f : α → Reports ε β) : (x >>= f).value = (f x.value).value := rfl

@[simp] theorem value_report (e : ε) : (report e).value = () := rfl

@[simp] theorem allEvents_pure (a : α) : AllEvents P (pure a : Reports ε α) := fun _ he => absurd he List.not_mem_nil

@[simp] theorem allEvents_bind (x : Reports ε α) (f : α → Reports ε β) :
    (x >>= f).AllEvents P ↔ x.AllEvents P ∧ (f x.value).AllEvents P := List.forall_mem_append

@[simp] theorem allEvents_report (e : ε) : (report e).AllEvents P ↔ P e := List.forall_mem_singleton

end Reports

end MoltarOS.Lib
