import MoltarOS.Sched.Machine

/-!
# Where the CPU can be

Each function of the scheduler passes through stages: in its critical section, with a
child allocated, with the child linked but not complete, and so on. `Moves` says from
which stage to which a statement leads, `Typed` that a frame can be executed from a stage
to its end, and `StackOk` that a whole stack can: on top of the task's own code there is
at most one call, and any number of interrupt handlers on top of that.

All log calls of these functions are `KTRACE`; a filtered one does not change the stage.
-/

namespace MoltarOS.Sched

open MoltarOS.Lib
open MoltarOS.Mm (PAGE_SIZE)

/-! ### Stages -/

/-- What a frame belongs to. -/
inductive Kind where
  /-- The task's own code, or a panic. -/
  | base
  /-- `yield` or `thread_create`. -/
  | call
  /-- An interrupt handler. -/
  | handler

/-- How far a function is. -/
inductive Stage where
  /-- Nothing is pending. -/
  | free
  /-- Interrupts are disabled. -/
  | masked
  /-- A child is allocated. -/
  | building (child : TaskRef)
  /-- Its stack is, too. -/
  | staged (child : TaskRef) (newStack : UInt32)
  /-- It knows its stack. -/
  | stacked (child : TaskRef)
  /-- It is in the list. -/
  | linked (child : TaskRef)
  /-- The first `n` of its registers are set. -/
  | filling (child : TaskRef) (ctx : Context) (n : ℕ)
  /-- The task's registers are read, and the first `n` of them stored. -/
  | swap (ctx : Context) (n : ℕ)

/-- On the stack of `o`, the statement leads from one stage to another. -/
inductive Moves (o : TaskRef) : Kind → Instr → Stage → Stage → Prop
  | print {k σ} : Moves o k .print σ σ
  | trace {k σ} : Moves o k (.log LEVEL_TRACE) σ σ
  | cli {k} : Moves o k .cli .free .masked
  -- the task's own code
  | user : Moves o .base .user .free .free
  | klog : Moves o .base .klog .free .free
  | halt : Moves o .base .halt .masked .masked
  -- `yield` and `thread_create`
  | sti : Moves o .call .sti .masked .free
  | stiFree : Moves o .call .sti .free .free
  | clearTicks : Moves o .call .clearTicks .masked .masked
  | int255 : Moves o .call .int255 .free .free
  | taskNew : Moves o .call .taskNew .masked .free
  | memset {c} : Moves o .call (.memset c) (.building c) (.building c)
  | readParent {c} : Moves o .call (.readParent c) (.building c) .free
  | setId {c} : Moves o .call (.setId c o) (.building c) (.building c)
  | allocBlock {c} : Moves o .call (.allocBlock c o) (.building c) (.stacked c)
  | setStackStart {c p} : Moves o .call (.setStackStart c p) (.staged c p) (.stacked c)
  | insertAfter {c} : Moves o .call (.insertAfter o c) (.stacked c) (.linked c)
  | readEip {c} : Moves o .call .readEip (.linked c) (.linked c)
  | parent {c} : Moves o .call (.branch c o) (.linked c) .free
  | readRegs {c} : Moves o .call (.readRegs c o) (.linked c) .free
  | setEsp {c ctx} : Moves o .call (.setEsp c ctx.esp) (.filling c ctx 0) (.filling c ctx 1)
  | setEbp {c ctx} : Moves o .call (.setEbp c ctx.ebp) (.filling c ctx 1) (.filling c ctx 2)
  | setEip {c ctx} : Moves o .call (.setEip c ctx.eip) (.filling c ctx 2) .masked
  | child {p} (hp : p ≠ o) : Moves o .call (.branch o p) .free .free
  | callTask : Moves o .call .callTask .free .free
  -- the handler
  | taskSwitch : Moves o .handler .taskSwitch .masked .free
  | capture : Moves o .handler (.capture o) .masked .free
  | advance {ctx} : Moves o .handler .advance (.swap ctx 0) (.swap ctx 0)
  | refill {ctx} : Moves o .handler .refill (.swap ctx 0) (.swap ctx 0)
  | saveEip {ctx} : Moves o .handler (.saveEip o ctx.eip) (.swap ctx 0) (.swap ctx 1)
  | saveEsp {ctx} : Moves o .handler (.saveEsp o ctx.esp) (.swap ctx 1) (.swap ctx 2)
  | saveEbp {ctx} : Moves o .handler (.saveEbp o ctx.ebp) (.swap ctx 2) (.swap ctx 3)
  | perform {ctx} : Moves o .handler .performTaskSwitch (.swap ctx 3) .free
  | iret {b} : Moves o .handler (.iret b) .free .free

/-! ### Frames -/

/-- The statements lead, one after the other, from one stage to another. -/
def Runs (o : TaskRef) (k : Kind) : Stage → Frame → Stage → Prop
  | σ, [], τ => σ = τ
  | σ, i :: f, τ => ∃ ρ, Moves o k i σ ρ ∧ Runs o k ρ f τ

/-- The frame can be executed to its end, where nothing is pending. -/
def Typed (o : TaskRef) (k : Kind) (σ : Stage) (f : Frame) : Prop := Runs o k σ f .free ∨ Runs o k σ f .masked

variable {o c : TaskRef} {k : Kind} {σ τ ρ : Stage} {f g : Frame}

theorem Runs.append (hf : Runs o k σ f ρ) (hg : Runs o k ρ g τ) : Runs o k σ (f ++ g) τ := by
  induction f generalizing σ with
  | nil =>
    cases hf
    exact hg
  | cons i f ih =>
    obtain ⟨σ', hi, hrest⟩ := hf
    exact ⟨σ', hi, ih hrest⟩

/-- Code may be put before a frame. -/
theorem Runs.typed (hf : Runs o k σ f ρ) (hg : Typed o k ρ g) : Typed o k σ (f ++ g) :=
  hg.imp hf.append hf.append

theorem typed_nil : Typed o k σ [] ↔ σ = .free ∨ σ = .masked := Iff.rfl

theorem typed_cons {i : Instr} : Typed o k σ (i :: f) ↔ ∃ ρ, Moves o k i σ ρ ∧ Typed o k ρ f := by
  constructor
  · rintro (⟨ρ, hi, h⟩ | ⟨ρ, hi, h⟩)
    exacts [⟨ρ, hi, Or.inl h⟩, ⟨ρ, hi, Or.inr h⟩]
  · rintro ⟨ρ, hi, h | h⟩
    exacts [Or.inl ⟨ρ, hi, h⟩, Or.inr ⟨ρ, hi, h⟩]

/-- The task's own code does not depend on the task. -/
theorem Moves.base {i : Instr} (h : Moves o .base i σ τ) : Moves c .base i σ τ := by
  cases h
  case print => exact .print
  case trace => exact .trace
  case cli => exact .cli
  case user => exact .user
  case klog => exact .klog
  case halt => exact .halt

theorem Typed.base (h : Typed o .base σ f) : Typed c .base σ f := by
  induction f generalizing σ with
  | nil => exact h
  | cons i f ih =>
    obtain ⟨ρ, hi, hf⟩ := typed_cons.mp h
    exact typed_cons.mpr ⟨ρ, hi.base, ih hf⟩

/-! ### The frames of the code -/

theorem typed_klog : Typed o .call .free KLOG :=
  Or.inl ⟨_, .cli, _, .print, _, .print, _, .print, _, .print, _, .sti, rfl⟩

theorem typed_kpanic : Typed o .base .free KPANIC :=
  Or.inr ⟨_, .klog, _, .cli, _, .halt, rfl⟩

theorem typed_user : Typed o .base .free [.user] :=
  Or.inl ⟨_, .user, rfl⟩

theorem typed_handler (b : Bool) : Typed o .handler .free (handler b) :=
  Or.inl ⟨_, .cli, _, .taskSwitch, _, .iret, rfl⟩

theorem typed_yield : Typed o .call .free yield :=
  Or.inl ⟨_, .cli, _, .clearTicks, _, .sti, _, .int255, rfl⟩

theorem typed_threadCreate : Typed o .call .free threadCreate :=
  Or.inl ⟨_, .trace, _, .cli, _, .taskNew, rfl⟩

theorem runs_taskNewRest (grown : Bool) : Runs o .call (.building c) (taskNewRest c grown) .free := by
  have hrest : Runs o .call (.building c) [.memset c, KTRACE, .readParent c] .free :=
    ⟨_, .memset, _, .trace, _, .readParent, rfl⟩
  cases grown
  · exact hrest
  · exact ⟨_, .trace, hrest⟩

theorem runs_threadCreateRest : Runs o .call (.building c) (threadCreateRest c o) .free :=
  ⟨_, .setId, _, .trace, _, .allocBlock, _, .trace, _, .insertAfter, _, .trace, _, .readEip, _, .parent, rfl⟩

theorem runs_copyStackRest (newStack : UInt32) (n : ℕ) :
    Runs o .call (.staged c newStack) (copyStackRest c newStack n) (.stacked c) := by
  have hloop : Runs o .call (.staged c newStack) (List.replicate n KTRACE) (.staged c newStack) := by
    induction n with
    | zero => rfl
    | succ n ih => exact ⟨_, .trace, ih⟩
  have hstart : Runs o .call (.staged c newStack) [KTRACE, KTRACE] (.staged c newStack) := ⟨_, .trace, _, .trace, rfl⟩
  exact (hstart.append hloop).append ⟨_, .trace, _, .setStackStart, rfl⟩

theorem runs_setupRest (ctx : Context) : Runs o .call (.filling c ctx 0) (setupRest c ctx) .free :=
  ⟨_, .setEsp, _, .setEbp, _, .setEip, _, .trace, _, .sti, rfl⟩

theorem runs_switchRest (ctx : Context) : Runs o .handler (.swap ctx 0) (switchRest o ctx) .free :=
  ⟨_, .advance, _, .refill, _, .saveEip, _, .saveEsp, _, .saveEbp, _, .perform, rfl⟩

/-! ### Stacks -/

/-- The stack can be executed, its top frame being of a kind and at a stage. -/
def StackOk (o : TaskRef) : Kind → Stage → Stack → Prop
  | _, σ, [] => σ = .free
  | k, σ, f :: lower => Typed o k σ f ∧
    match k with
    | .handler => ∃ k', StackOk o k' .free lower
    | _ => ∀ g ∈ lower, Typed o .base .free g

/-- What may lie below a frame. -/
def Below (o : TaskRef) (k : Kind) (lower : Stack) : Prop :=
  match k with
  | .handler => ∃ k', StackOk o k' .free lower
  | _ => ∀ g ∈ lower, Typed o .base .free g

theorem stackOk_cons {lower : Stack} : StackOk o k σ (f :: lower) ↔ Typed o k σ f ∧ Below o k lower := by
  cases k <;> exact Iff.rfl

theorem stackOk_base {st : Stack} (h : ∀ g ∈ st, Typed o .base .free g) : StackOk o .base .free st := by
  cases st with
  | nil => rfl
  | cons g st => exact ⟨h g List.mem_cons_self, fun g' hg' => h g' (List.mem_cons_of_mem g hg')⟩

/-- What is below is executed when the frame is done. -/
theorem Below.stackOk {lower : Stack} (h : Below o k lower) : ∃ k', StackOk o k' .free lower := by
  cases k with
  | base => exact ⟨.base, stackOk_base h⟩
  | call => exact ⟨.base, stackOk_base h⟩
  | handler => exact h

/-- The child's copy of its parent's stack, in the child's hands. -/
theorem stackOk_child {lower : Stack} (h : Below o .call lower) (hne : o ≠ c) :
    StackOk c .call .free ([.branch c o] :: lower) :=
  ⟨Or.inl ⟨_, .child hne, rfl⟩, fun g hg => (h g hg).base⟩

end MoltarOS.Sched
