import MoltarOS.Lib.Machine
import MoltarOS.Sched.Stack

/-!
# The scheduler as a machine

`task_switch`, `thread_create` and `yield` of `sched/task.c`, one statement at a time, with
the timer interrupt free to come between any two while interrupts are enabled. Log calls
are what `kernel/logger.h` makes of them at a given `LOG_LEVEL`: where they are not
filtered they disable interrupts, print, and enable them.

The CPU works off a stack of frames, each the list of statements its function has still to
execute, with the values of its local variables filled in. What stack memory holds for a
triple of registers (`eip`, `esp`, `ebp`) that is not in the CPU is `image`.

What the hardware and the callers decide is in the label of a step (`Act`): when the timer
fires, what a task's own code calls, the values of `esp` and `ebp` that are read (which lie on the
stack in use), and the blocks that `kmalloc` and `alloc_block` return (which are not in
use: `live_disjoint` and `pages_apart` of the allocators).
-/

namespace MoltarOS.Sched

open MoltarOS.Lib
open MoltarOS.Mm (PAGE_SIZE)

/-! ### Statements -/

/-- The address of a `task_t`. -/
abbrev TaskRef := ℕ

/-- The registers that make up the progress of a task. -/
@[ext] structure Context where
  /-- Where it goes on. -/
  eip : UInt32
  /-- Its stack pointer. -/
  esp : UInt32
  /-- Its base pointer. -/
  ebp : UInt32
  deriving DecidableEq

/-- The progress a task has stored. -/
def Task.context (t : Task) : Context := ⟨t.eip, t.esp, t.ebp⟩

/-- `DUMMY_EIP`, what `read_eip` seems to return in a task that was just switched to. -/
def DUMMY_EIP : UInt32 := 0x12345

/-- `TICKS_PER_SLICE`. -/
def TICKS_PER_SLICE : UInt32 := 50

/-- `LEVEL_TRACE`. -/
def LEVEL_TRACE : ℕ := 1

/-- `LEVEL_INFO`, the `LOG_LEVEL` of the repository. -/
def LEVEL_INFO : ℕ := 3

/-- The statements of the scheduler and of what it calls. -/
inductive Instr where
  /-- `cli`. -/
  | cli
  /-- `sti`. -/
  | sti
  /-- Output, by `vga_print` or `printf`. -/
  | print
  /-- A log call (`KTRACE`, `KDEBUG`, …) of a level. -/
  | log (level : ℕ)
  /-- The log call of `KPANIC`, which is never filtered. -/
  | klog
  /-- `while (true) hlt`. -/
  | halt
  /-- The task's own code. -/
  | user
  /-- `yield`: `current->ticks = 0`. -/
  | clearTicks
  /-- `INT $255`. -/
  | int255
  /-- The return from an interrupt that found interrupts enabled or not. -/
  | iret (flag : Bool)
  /-- `task_switch`, up to `curr = current`. -/
  | taskSwitch
  /-- Its `esp`, `ebp` and `eip = read_eip()`. -/
  | capture (curr : TaskRef)
  /-- `current = LIST_NEXT(current)`, or `LIST_FIRST` after the last. -/
  | advance
  /-- `current->ticks = TICKS_PER_SLICE`. -/
  | refill
  /-- `curr->eip = eip`. -/
  | saveEip (curr : TaskRef) (eip : UInt32)
  /-- `curr->esp = esp`. -/
  | saveEsp (curr : TaskRef) (esp : UInt32)
  /-- `curr->ebp = ebp`. -/
  | saveEbp (curr : TaskRef) (ebp : UInt32)
  /-- `perform_task_switch(current->eip, current->ebp, current->esp)`. -/
  | performTaskSwitch
  /-- `task_new`, up to the block `kmalloc` returns. -/
  | taskNew
  /-- `memset(task, 0, sizeof(task_t))`. -/
  | memset (child : TaskRef)
  /-- `thread_create`: `parent = current`. -/
  | readParent (child : TaskRef)
  /-- `child->id = parent->id + 1`. -/
  | setId (child parent : TaskRef)
  /-- `copy_stack`, from `alloc_block` to the end of the loop. -/
  | allocBlock (child parent : TaskRef)
  /-- `child->stack_start = new_stack`. -/
  | setStackStart (child : TaskRef) (newStack : UInt32)
  /-- `LIST_INSERT_AFTER(parent, child, next_task)`. -/
  | insertAfter (parent child : TaskRef)
  /-- `eip = read_eip()`. -/
  | readEip
  /-- `if (current == parent)`. -/
  | branch (child parent : TaskRef)
  /-- `esp`, `ebp` and `offset` of the parent. -/
  | readRegs (child parent : TaskRef)
  /-- `child->esp = offset + esp`. -/
  | setEsp (child : TaskRef) (esp : UInt32)
  /-- `child->ebp = offset + ebp`. -/
  | setEbp (child : TaskRef) (ebp : UInt32)
  /-- `child->eip = eip`. -/
  | setEip (child : TaskRef) (eip : UInt32)
  /-- `task(args)`, in the child, and the panic that follows. -/
  | callTask
  deriving DecidableEq

/-- The statements that leave something open, which the label of their step decides. -/
def Instr.isOpen : Instr → Bool
  | .user | .capture _ | .taskNew | .allocBlock _ _ | .readRegs _ _ => true
  | _ => false

/-- What a function has still to execute. -/
abbrev Frame := List Instr

/-- The frames of a stack, the innermost call first. -/
abbrev Stack := List Frame

/-! ### The code -/

/-- `KLOG`. -/
def KLOG : Frame := [.cli, .print, .print, .print, .print, .sti]

/-- `KTRACE`. -/
def KTRACE : Instr := .log LEVEL_TRACE

/-- `KPANIC`. -/
def KPANIC : Frame := [.klog, .cli, .halt]

/-- An interrupt: the stub's `cli`, then the handler registered for the timer and for `INT $255`. -/
def handler (flag : Bool) : Frame := [.cli, .taskSwitch, .iret flag]

/-- `yield`. -/
def yield : Frame := [.cli, .clearTicks, .sti, .int255]

/-- `thread_create`, up to the `kmalloc` in `task_new`. -/
def threadCreate : Frame := [KTRACE, .cli, .taskNew]

/-- Once `kmalloc` has returned `child`; it logs if the heap had to grow. -/
def taskNewRest (child : TaskRef) (grown : Bool) : Frame :=
  (if grown then [KTRACE] else []) ++ [.memset child, KTRACE, .readParent child]

/-- The rest of `thread_create`, up to where parent and child part. -/
def threadCreateRest (child parent : TaskRef) : Frame :=
  [.setId child parent, KTRACE, .allocBlock child parent, KTRACE, .insertAfter parent child, KTRACE, .readEip,
    .branch child parent]

/-- The rest of `copy_stack` when the page is `newStack` and so many pointers are redirected. -/
def copyStackRest (child : TaskRef) (newStack : UInt32) (redirected : ℕ) : Frame :=
  [KTRACE, KTRACE] ++ List.replicate redirected KTRACE ++ [KTRACE, .setStackStart child newStack]

/-- The parent's branch of `thread_create` when the child's registers are to be `ctx`. -/
def setupRest (child : TaskRef) (ctx : Context) : Frame :=
  [.setEsp child ctx.esp, .setEbp child ctx.ebp, .setEip child ctx.eip, KTRACE, .sti]

/-- The rest of `task_switch` once it has read its registers. -/
def switchRest (curr : TaskRef) (ctx : Context) : Frame :=
  [.advance, .refill, .saveEip curr ctx.eip, .saveEsp curr ctx.esp, .saveEbp curr ctx.ebp, .performTaskSwitch]

/-! ### States -/

/-- What is fixed when the kernel is built. -/
structure Config where
  /-- `LOG_LEVEL`. -/
  level : ℕ
  /-- The address after the call of `read_eip` in `task_switch`. -/
  switchEip : UInt32
  /-- The one in `thread_create`. -/
  createEip : UInt32
  /-- The kernel is linked above `0xC0100000`. -/
  switch_ne : switchEip ≠ DUMMY_EIP

/-- A state of the kernel. -/
structure State where
  /-- The interrupt flag. -/
  flag : Bool
  /-- What the CPU has still to execute. -/
  stack : Stack
  /-- The task whose stack it is on. -/
  owner : TaskRef
  /-- The list of tasks. -/
  tasks : List TaskRef
  /-- `current`. -/
  current : TaskRef
  /-- The structures of the tasks. -/
  task : TaskRef → Task
  /-- What stack memory holds for registers that are not in the CPU: the task whose stack it is, and
  what it has still to execute. -/
  image : Context → Option (TaskRef × Stack)
  /-- What was captured by a task, or set up for it by `thread_create`, newest first. -/
  stored : List (TaskRef × Context)

/-- `LIST_NEXT`. -/
def listNext (tasks : List TaskRef) (t : TaskRef) : Option TaskRef := (tasks.dropWhile (· ≠ t)).tail.head?

/-- `LIST_INSERT_AFTER`. -/
def listInsertAfter : List TaskRef → TaskRef → TaskRef → List TaskRef
  | [], _, _ => []
  | u :: us, parent, child => if u = parent then u :: child :: us else u :: listInsertAfter us parent child

namespace State

/-- After `task_init`: the task `root` runs on the kernel's stack. -/
def init (root : TaskRef) (heap : TaskRef → Task) : State where
  flag := true
  stack := [[.user, .cli, .halt]]
  owner := root
  tasks := [root]
  current := root
  task := Function.update heap root ⟨0, 0, 0, kernelStack, 0, TICKS_PER_SLICE⟩
  image := fun _ => none
  stored := []

/-- Change one task. -/
def modify (s : State) (t : TaskRef) (f : Task → Task) : State :=
  { s with task := Function.update s.task t (f (s.task t)) }

/-- `child->eip = eip`: the child's registers are now complete. -/
def setEip (s : State) (child : TaskRef) (eip : UInt32) : State :=
  let s' := s.modify child fun t => { t with eip := eip }
  { s' with stored := (child, (s'.task child).context) :: s'.stored }

/-- The task that `advance` selects. -/
def successor (s : State) : TaskRef := (listNext s.tasks s.current).getD (s.tasks.headD s.current)

/-- Go on with the given frames. -/
def goto (s : State) (stack : Stack) : State := { s with stack := stack }

/-- An interrupt: the flag is saved and cleared. -/
def interrupt (s : State) : State := { s with flag := false, stack := handler s.flag :: s.stack }

/-- Execute a statement that leaves nothing open, with `rest` and `lower` to follow. -/
def execute (cfg : Config) (s : State) (rest : Frame) (lower : Stack) : Instr → Option State
  | .cli => some { s.goto (rest :: lower) with flag := false }
  | .sti => some { s.goto (rest :: lower) with flag := true }
  | .print | .readEip => some (s.goto (rest :: lower))
  | .log level =>
    -- a filtered log call is `printf("")`
    if cfg.level ≤ level then some (s.goto (KLOG :: rest :: lower)) else some (s.goto ((.print :: rest) :: lower))
  | .klog => some (s.goto (KLOG :: rest :: lower))
  | .halt => some s
  | .clearTicks => some ((s.goto (rest :: lower)).modify s.current fun t => { t with ticks := 0 })
  | .int255 => some (s.goto (rest :: lower)).interrupt
  | .iret flag => some { s.goto (rest :: lower) with flag := flag }
  | .taskSwitch =>
    if (s.task s.current).ticks ≠ 0 then
      some ((s.goto (rest :: lower)).modify s.current fun t => { t with ticks := t.ticks - 1 })
    else some (s.goto ((.capture s.current :: rest) :: lower))
  | .advance => some { s.goto (rest :: lower) with current := s.successor }
  | .refill => some ((s.goto (rest :: lower)).modify s.current fun t => { t with ticks := TICKS_PER_SLICE })
  | .saveEip curr eip => some ((s.goto (rest :: lower)).modify curr fun t => { t with eip := eip })
  | .saveEsp curr esp => some ((s.goto (rest :: lower)).modify curr fun t => { t with esp := esp })
  | .saveEbp curr ebp => some ((s.goto (rest :: lower)).modify curr fun t => { t with ebp := ebp })
  | .performTaskSwitch =>
    (s.image (s.task s.current).context).map fun (owner, stack) =>
      { s with flag := true, stack := stack, owner := owner }
  | .memset child => some ((s.goto (rest :: lower)).modify child fun _ => ⟨0, 0, 0, 0, 0, 0⟩)
  | .readParent child => some (s.goto ((threadCreateRest child s.current ++ rest) :: lower))
  | .setId child parent => some ((s.goto (rest :: lower)).modify child fun t => { t with id := (s.task parent).id + 1 })
  | .setStackStart child newStack =>
      some ((s.goto (rest :: lower)).modify child fun t => { t with stackStart := newStack })
  | .insertAfter parent child =>
    some { s.goto (rest :: lower) with tasks := listInsertAfter s.tasks parent child }
  | .branch child parent =>
    if s.current = parent then some (s.goto ((KTRACE :: .readRegs child parent :: rest) :: lower))
    else some (s.goto ((.sti :: .callTask :: rest) :: lower))
  | .setEsp child esp => some ((s.goto (rest :: lower)).modify child fun t => { t with esp := esp })
  | .setEbp child ebp => some ((s.goto (rest :: lower)).modify child fun t => { t with ebp := ebp })
  | .setEip child eip => some ((s.goto (rest :: lower)).setEip child eip)
  | .callTask => some (s.goto ([.user] :: KPANIC :: lower))
  | .user | .capture _ | .taskNew | .allocBlock _ _ | .readRegs _ _ => none

end State

/-! ### Steps -/

/-- What a task's own code can do. -/
inductive UserAct where
  /-- `cli`. -/
  | cli
  /-- `sti`. -/
  | sti
  /-- Call `yield`. -/
  | yield
  /-- Call `thread_create`. -/
  | threadCreate
  /-- Return. -/
  | ret

/-- What happens in a step. -/
inductive Act where
  /-- The timer interrupts. -/
  | timer
  /-- The CPU executes a statement that leaves nothing open. -/
  | step
  /-- It executes the task's own code. -/
  | user (c : UserAct)
  /-- `kmalloc` returns a block, after growing the heap or not. -/
  | kmalloc (child : TaskRef) (grown : Bool)
  /-- `alloc_block` returns a page, and the loop that follows redirects so many pointers. -/
  | page (newStack : UInt32) (redirected : ℕ)
  /-- There is no memory left. -/
  | panic
  /-- `esp` and `ebp` are read. -/
  | regs (esp ebp : UInt32)

namespace State

/-- The task's own code does something, with `rest` and `lower` to follow when it returns. -/
def userStep (s : State) (rest : Frame) (lower : Stack) : UserAct → State
  | .cli => { s with flag := false }
  | .sti => { s with flag := true }
  | .yield => s.goto (MoltarOS.Sched.yield :: (.user :: rest) :: lower)
  | .threadCreate => s.goto (MoltarOS.Sched.threadCreate :: (.user :: rest) :: lower)
  | .ret => s.goto (rest :: lower)

/-- `task_switch` reads the registers: whoever jumps to them later returns from it. -/
def captured (cfg : Config) (s : State) (curr : TaskRef) (esp ebp : UInt32) (rest : Frame) (lower : Stack) : State :=
  let ctx : Context := ⟨cfg.switchEip, esp, ebp⟩
  if ctx.eip ≠ DUMMY_EIP then
    { s with
      stack := (switchRest curr ctx ++ rest) :: lower
      image := Function.update s.image ctx (some (s.owner, rest :: lower))
      stored := (s.owner, ctx) :: s.stored }
  else s.goto (rest :: lower)

/-- The parent works out the child's registers: whoever jumps to them returns from `read_eip` on
the child's copy of the stack. -/
def configured (cfg : Config) (s : State) (child parent : TaskRef) (esp ebp : UInt32) (rest : Frame)
    (lower : Stack) : State :=
  let offset := (s.task child).stackStart - (s.task parent).stackStart
  let ctx : Context := ⟨cfg.createEip, offset + esp, offset + ebp⟩
  { s with
    stack := (setupRest child ctx ++ rest) :: lower
    image := Function.update s.image ctx (some (child, [.branch child parent] :: lower)) }

/-- One step, `none` where the label does not fit the state. -/
def step (cfg : Config) (s : State) : Act → Option State
  | .timer => if s.flag then some s.interrupt else none
  | .step =>
    match s.stack with
    | [] => none
    | [] :: lower => some (s.goto lower)
    | (i :: rest) :: lower => s.execute cfg rest lower i
  | .user c =>
    match s.stack with
    | (.user :: rest) :: lower => some (s.userStep rest lower c)
    | _ => none
  | .kmalloc child grown =>
    match s.stack with
    | (.taskNew :: rest) :: lower =>
      if child ∈ s.tasks then none else some (s.goto ((taskNewRest child grown ++ rest) :: lower))
    | _ => none
  | .page newStack redirected =>
    match s.stack with
    | (.allocBlock child _ :: rest) :: lower =>
      if newStack.toNat + PAGE_SIZE.toNat ≤ 2 ^ 32 ∧ ∀ u ∈ s.tasks, PagesApart newStack (s.task u).stackStart then
        some (s.goto ((copyStackRest child newStack redirected ++ rest) :: lower))
      else none
    | _ => none
  | .panic =>
    match s.stack with
    | (.taskNew :: _) :: lower | (.allocBlock _ _ :: _) :: lower => some (s.goto (KPANIC :: lower))
    | _ => none
  | .regs esp ebp =>
    if InPage (s.task s.owner).stackStart esp then
      match s.stack with
      | (.capture curr :: rest) :: lower => some (s.captured cfg curr esp ebp rest lower)
      | (.readRegs child parent :: rest) :: lower => some (s.configured cfg child parent esp ebp rest lower)
      | _ => none
    else none

/-- What a step can be. -/
inductive Stepped (cfg : Config) (s : State) : Act → State → Prop
  | timer (hflag : s.flag = true) : Stepped cfg s .timer s.interrupt
  | done {lower : Stack} (hstack : s.stack = [] :: lower) : Stepped cfg s .step (s.goto lower)
  | execute {i : Instr} {rest : Frame} {lower : Stack} {t : State} (hstack : s.stack = (i :: rest) :: lower)
    (he : s.execute cfg rest lower i = some t) : Stepped cfg s .step t
  | user {rest : Frame} {lower : Stack} (c : UserAct) (hstack : s.stack = (.user :: rest) :: lower) :
    Stepped cfg s (.user c) (s.userStep rest lower c)
  | kmalloc {rest : Frame} {lower : Stack} (child : TaskRef) (grown : Bool)
      (hstack : s.stack = (.taskNew :: rest) :: lower)
    (hfresh : child ∉ s.tasks) : Stepped cfg s (.kmalloc child grown)
      (s.goto ((taskNewRest child grown ++ rest) :: lower))
  | page {child parent : TaskRef} {rest : Frame} {lower : Stack} (newStack : UInt32) (redirected : ℕ)
    (hstack : s.stack = (.allocBlock child parent :: rest) :: lower)
    (hfree : newStack.toNat + PAGE_SIZE.toNat ≤ 2 ^ 32 ∧ ∀ u ∈ s.tasks, PagesApart newStack (s.task u).stackStart) :
    Stepped cfg s (.page newStack redirected) (s.goto ((copyStackRest child newStack redirected ++ rest) :: lower))
  | panicNew {rest : Frame} {lower : Stack} (hstack : s.stack = (.taskNew :: rest) :: lower) :
    Stepped cfg s .panic (s.goto (KPANIC :: lower))
  | panicBlock {child parent : TaskRef} {rest : Frame} {lower : Stack}
    (hstack : s.stack = (.allocBlock child parent :: rest) :: lower) : Stepped cfg s .panic (s.goto (KPANIC :: lower))
  | capture {curr : TaskRef} {rest : Frame} {lower : Stack} {esp : UInt32} (ebp : UInt32)
    (hstack : s.stack = (.capture curr :: rest) :: lower) (hpage : InPage (s.task s.owner).stackStart esp) :
    Stepped cfg s (.regs esp ebp) (s.captured cfg curr esp ebp rest lower)
  | readRegs {child parent : TaskRef} {rest : Frame} {lower : Stack} {esp : UInt32} (ebp : UInt32)
    (hstack : s.stack = (.readRegs child parent :: rest) :: lower) (hpage : InPage (s.task s.owner).stackStart esp) :
    Stepped cfg s (.regs esp ebp) (s.configured cfg child parent esp ebp rest lower)

/-- A step is one of these. -/
theorem stepped_of_step {cfg : Config} {s t : State} {a : Act} (hs : s.step cfg a = some t) : s.Stepped cfg a t := by
  cases a with
  | timer =>
    simp only [step] at hs
    split_ifs at hs with hflag
    cases hs
    exact .timer hflag
  | step =>
    simp only [step] at hs
    split at hs
    · cases hs
    · next hstack =>
      cases hs
      exact .done hstack
    · next hstack => exact .execute hstack hs
  | user c =>
    simp only [step] at hs
    split at hs
    · next hstack =>
      cases hs
      exact .user c hstack
    · cases hs
  | kmalloc child grown =>
    simp only [step] at hs
    split at hs
    · next hstack =>
      split_ifs at hs with hfresh
      cases hs
      exact .kmalloc child grown hstack hfresh
    · cases hs
  | page newStack redirected =>
    simp only [step] at hs
    split at hs
    · next hstack =>
      split_ifs at hs with hfree
      cases hs
      exact .page newStack redirected hstack hfree
    · cases hs
  | panic =>
    simp only [step] at hs
    split at hs
    · next hstack =>
      cases hs
      exact .panicNew hstack
    · next hstack =>
      cases hs
      exact .panicBlock hstack
    · cases hs
  | regs esp ebp =>
    simp only [step] at hs
    split_ifs at hs with hpage
    split at hs
    · next hstack =>
      cases hs
      exact .capture ebp hstack hpage
    · next hstack =>
      cases hs
      exact .readRegs ebp hstack hpage
    · cases hs

/-- Before a statement that leaves nothing open, the timer comes or the statement is executed. -/
theorem step_closed {cfg : Config} {s t : State} {i : Instr} {f : Frame} {lower : Stack} {a : Act}
    (hi : i.isOpen = false) (hstack : s.stack = (i :: f) :: lower) (hs : s.step cfg a = some t) :
    (s.flag = true ∧ t = s.interrupt) ∨ s.execute cfg f lower i = some t := by
  have htop : ∀ {j : Instr} {g : Frame} {below : Stack}, s.stack = (j :: g) :: below → i = j := fun h => by
    rw [hstack] at h
    exact (List.cons.inj (List.cons.inj h).1).1
  cases stepped_of_step hs with
  | timer hflag => exact Or.inl ⟨hflag, rfl⟩
  | done hdone => cases hstack.symm.trans hdone
  | execute hstack' he =>
    cases hstack.symm.trans hstack'
    exact Or.inr he
  | user c hother | kmalloc child grown hother hfresh | page newStack redirected hother hfree | panicNew hother
  | panicBlock hother | capture ebp hother hpage | readRegs ebp hother hpage =>
    rw [htop hother] at hi
    cases hi

/-- With interrupts disabled it is executed. -/
theorem step_masked {cfg : Config} {s t : State} {i : Instr} {f : Frame} {lower : Stack} {a : Act}
    (hi : i.isOpen = false)
    (hflag : s.flag = false) (hstack : s.stack = (i :: f) :: lower) (hs : s.step cfg a = some t) :
    s.execute cfg f lower i = some t := by
  refine (step_closed hi hstack hs).resolve_left fun h => ?_
  cases hflag.symm.trans h.1

/-- After the last statement of a frame, the timer comes or the frame is left. -/
theorem step_done {cfg : Config} {s t : State} {lower : Stack} {a : Act} (hstack : s.stack = [] :: lower)
    (hs : s.step cfg a = some t) : (s.flag = true ∧ t = s.interrupt) ∨ t = s.goto lower := by
  cases stepped_of_step hs with
  | timer hflag => exact Or.inl ⟨hflag, rfl⟩
  | done hdone =>
    cases hstack.symm.trans hdone
    exact Or.inr rfl
  | execute hother he => cases hstack.symm.trans hother
  | user c hother | kmalloc child grown hother hfresh | page newStack redirected hother hfree | panicNew hother
  | panicBlock hother | capture ebp hother hpage | readRegs ebp hother hpage => cases hstack.symm.trans hother

end State

/-- The scheduler at a given `LOG_LEVEL`. -/
def schedMachine (cfg : Config) : Machine State Act := ⟨State.step cfg⟩

end MoltarOS.Sched
