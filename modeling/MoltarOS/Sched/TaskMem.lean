import MoltarOS.Libc.String
import MoltarOS.Sched.Invariant
import MoltarOS.Sched.Queue

/-!
# The tasks in memory

The scheduler with its tasks where they are: each `task_t` in a block of memory, its fields read and written as
words, and the list of tasks made of the links in it, with `sys/queue.h`. The rest of the kernel may write wherever
there is no task.

The machine is that of `Sched.Machine` otherwise, and takes the same labels. `kmalloc` returns blocks that are apart
from all others (`live_disjoint` of the heap).
-/

namespace MoltarOS.Sched

open MoltarOS.Lib MoltarOS.Lib.Word
open MoltarOS.Mm (PAGE_SIZE)

/-! ### `task_t` -/

/-- The words of a `task_t` before `next_task`. -/
inductive Field where
  | eip
  | esp
  | ebp
  | stackStart
  | id
  | ticks
  deriving DecidableEq

namespace Field

/-- Where it is. -/
def offset : Field → UInt32
  | .eip => 0
  | .esp => 4
  | .ebp => 8
  | .stackStart => 12
  | .id => 16
  | .ticks => 20

/-- Its value. -/
def get : Field → Task → UInt32
  | .eip, t => t.eip
  | .esp, t => t.esp
  | .ebp, t => t.ebp
  | .stackStart, t => t.stackStart
  | .id, t => t.id
  | .ticks, t => t.ticks

/-- Another value. -/
def set (v : UInt32) : Field → Task → Task
  | .eip, t => { t with eip := v }
  | .esp, t => { t with esp := v }
  | .ebp, t => { t with ebp := v }
  | .stackStart, t => { t with stackStart := v }
  | .id, t => { t with id := v }
  | .ticks, t => { t with ticks := v }

end Field

/-- Where `next_task` is. -/
def nextTask : UInt32 := 24

/-- `sizeof(task_t)`. -/
def taskSize : ℕ := 32

/-- The address of a task, as a pointer. -/
def addr (t : TaskRef) : UInt32 := UInt32.ofNat t

/-- `t->field`. -/
def loadField (m : Mem) (t : TaskRef) (f : Field) : UInt32 := m.load32 (addr t + f.offset)

/-- `t->field = v`. -/
def storeField (m : Mem) (t : TaskRef) (f : Field) (v : UInt32) : Mem := m.store32 (addr t + f.offset) v

/-- The task in memory. -/
def readTask (m : Mem) (t : TaskRef) : Task :=
  ⟨loadField m t .eip, loadField m t .esp, loadField m t .ebp, loadField m t .stackStart, loadField m t .id,
    loadField m t .ticks⟩

/-! ### States and steps -/

/-- A state of the kernel. -/
structure MemState where
  /-- The interrupt flag. -/
  flag : Bool
  /-- What the CPU has still to execute. -/
  stack : Stack
  /-- The task whose stack it is on. -/
  owner : TaskRef
  /-- `current`. -/
  current : TaskRef
  /-- What stack memory holds for registers that are not in the CPU. -/
  image : Context → Option (TaskRef × Stack)
  /-- What was captured by a task, or set up for it. -/
  stored : List (TaskRef × Context)
  /-- The memory. -/
  mem : Mem
  /-- The blocks that `kmalloc` has returned for tasks. -/
  blocks : List TaskRef

/-- Blocks for tasks: not at NULL, in the address space, apart from each other and from `tasks`, which is at `head`. -/
def Separate (head : UInt32) (blocks : List TaskRef) : Prop :=
  (∀ t ∈ blocks, 0 < t ∧ t + taskSize ≤ 2 ^ 32 ∧ (head.toNat + 4 ≤ t ∨ t + taskSize ≤ head.toNat)) ∧
    (∀ t ∈ blocks, ∀ u ∈ blocks, t ≠ u → t + taskSize ≤ u ∨ u + taskSize ≤ t) ∧ head.toNat + 4 ≤ 2 ^ 32

instance (head : UInt32) (blocks : List TaskRef) : Decidable (Separate head blocks) :=
  inferInstanceAs (Decidable (_ ∧ _ ∧ _))

/-- What happens in a step. -/
inductive MemAct where
  /-- A step of the scheduler. -/
  | act (a : Act)
  /-- Other code writes a byte. -/
  | write (a : UInt32) (v : UInt8)

/-- The step of the scheduler that it is, if it is one. -/
def MemAct.acts : MemAct → List Act
  | .act a => [a]
  | .write _ _ => []

/-- Whether a byte belongs to a task or to `tasks`. -/
def Owned (head : UInt32) (blocks : List TaskRef) (a : UInt32) : Prop :=
  dist head a < 4 ∨ ∃ t ∈ blocks, dist (addr t) a < taskSize

instance (head : UInt32) (blocks : List TaskRef) (a : UInt32) : Decidable (Owned head blocks a) :=
  inferInstanceAs (Decidable (_ ∨ _))

namespace MemState

variable (head : UInt32) (cfg : Config) (c : MemState)

/-- Go on with the given frames. -/
def goto (stack : Stack) : MemState := { c with stack := stack }

/-- `t->field = v`. -/
def store (t : TaskRef) (f : Field) (v : UInt32) : MemState := { c with mem := storeField c.mem t f v }

/-- The registers that a task has stored. -/
def context (t : TaskRef) : Context := ⟨loadField c.mem t .eip, loadField c.mem t .esp, loadField c.mem t .ebp⟩

/-- An interrupt. -/
def interrupt : MemState := { c with flag := false, stack := handler c.flag :: c.stack }

/-- `LIST_NEXT(current)`, or `LIST_FIRST` after the last. -/
def successor : TaskRef :=
  let next := LIST_NEXT c.mem (addr c.current) nextTask
  (if next ≠ 0 then next else LIST_FIRST c.mem head).toNat

/-- Execute a statement that leaves nothing open, with `rest` and `lower` to follow. -/
def execute (rest : Frame) (lower : Stack) : Instr → Option MemState
  | .cli => some { c.goto (rest :: lower) with flag := false }
  | .sti => some { c.goto (rest :: lower) with flag := true }
  | .print | .readEip => some (c.goto (rest :: lower))
  | .log level =>
    if cfg.level ≤ level then some (c.goto (KLOG :: rest :: lower)) else some (c.goto ((.print :: rest) :: lower))
  | .klog => some (c.goto (KLOG :: rest :: lower))
  | .halt => some c
  | .clearTicks => some ((c.goto (rest :: lower)).store c.current .ticks 0)
  | .int255 => some (c.goto (rest :: lower)).interrupt
  | .iret flag => some { c.goto (rest :: lower) with flag := flag }
  | .taskSwitch =>
    if loadField c.mem c.current .ticks ≠ 0 then
      some ((c.goto (rest :: lower)).store c.current .ticks (loadField c.mem c.current .ticks - 1))
    else some (c.goto ((.capture c.current :: rest) :: lower))
  | .advance => some { c.goto (rest :: lower) with current := c.successor head }
  | .refill => some ((c.goto (rest :: lower)).store c.current .ticks TICKS_PER_SLICE)
  | .saveEip curr eip => some ((c.goto (rest :: lower)).store curr .eip eip)
  | .saveEsp curr esp => some ((c.goto (rest :: lower)).store curr .esp esp)
  | .saveEbp curr ebp => some ((c.goto (rest :: lower)).store curr .ebp ebp)
  | .performTaskSwitch =>
    (c.image (c.context c.current)).map fun (owner, stack) => { c with flag := true, stack := stack, owner := owner }
  | .memset child =>
    some { c.goto (rest :: lower) with mem := Libc.memset c.mem (addr child) 0 (UInt32.ofNat taskSize) }
  | .readParent child => some (c.goto ((threadCreateRest child c.current ++ rest) :: lower))
  | .setId child parent => some ((c.goto (rest :: lower)).store child .id (loadField c.mem parent .id + 1))
  | .setStackStart child newStack => some ((c.goto (rest :: lower)).store child .stackStart newStack)
  | .insertAfter parent child =>
    some { c.goto (rest :: lower) with mem := LIST_INSERT_AFTER c.mem (addr parent) (addr child) nextTask }
  | .branch child parent =>
    if c.current = parent then some (c.goto ((KTRACE :: .readRegs child parent :: rest) :: lower))
    else some (c.goto ((.sti :: .callTask :: rest) :: lower))
  | .setEsp child esp => some ((c.goto (rest :: lower)).store child .esp esp)
  | .setEbp child ebp => some ((c.goto (rest :: lower)).store child .ebp ebp)
  | .setEip child eip =>
    let c' := (c.goto (rest :: lower)).store child .eip eip
    some { c' with stored := (child, c'.context child) :: c.stored }
  | .callTask => some (c.goto ([.user] :: KPANIC :: lower))
  | .user | .capture _ | .taskNew | .allocBlock _ _ | .readRegs _ _ => none

/-- The task's own code does something. -/
def userStep (rest : Frame) (lower : Stack) : UserAct → MemState
  | .cli => { c with flag := false }
  | .sti => { c with flag := true }
  | .yield => c.goto (MoltarOS.Sched.yield :: (.user :: rest) :: lower)
  | .threadCreate => c.goto (MoltarOS.Sched.threadCreate :: (.user :: rest) :: lower)
  | .ret => c.goto (rest :: lower)

/-- `task_switch` reads the registers. -/
def captured (curr : TaskRef) (esp ebp : UInt32) (rest : Frame) (lower : Stack) : MemState :=
  let ctx : Context := ⟨cfg.switchEip, esp, ebp⟩
  if ctx.eip ≠ DUMMY_EIP then
    { c with
      stack := (switchRest curr ctx ++ rest) :: lower
      image := Function.update c.image ctx (some (c.owner, rest :: lower))
      stored := (c.owner, ctx) :: c.stored }
  else c.goto (rest :: lower)

/-- The parent works out the child's registers. -/
def configured (child parent : TaskRef) (esp ebp : UInt32) (rest : Frame) (lower : Stack) : MemState :=
  let offset := loadField c.mem child .stackStart - loadField c.mem parent .stackStart
  let ctx : Context := ⟨cfg.createEip, offset + esp, offset + ebp⟩
  { c with
    stack := (setupRest child ctx ++ rest) :: lower
    image := Function.update c.image ctx (some (child, [.branch child parent] :: lower)) }

/-- Whether a page is apart from the stack of each task in the list. -/
def PageFree (newStack : UInt32) : Prop :=
  ∀ p ∈ LIST_FOREACH c.mem head nextTask (c.blocks.length + 1),
    PagesApart newStack (loadField c.mem p.toNat .stackStart)

instance (newStack : UInt32) : Decidable (c.PageFree head newStack) := List.decidableBAll _ _

/-- A step of the scheduler, `none` where the label does not fit the state. -/
def stepAct : Act → Option MemState
  | .timer => if c.flag then some c.interrupt else none
  | .step =>
    match c.stack with
    | [] => none
    | [] :: lower => some (c.goto lower)
    | (i :: rest) :: lower => c.execute head cfg rest lower i
  | .user u =>
    match c.stack with
    | (.user :: rest) :: lower => some (c.userStep rest lower u)
    | _ => none
  | .kmalloc child grown =>
    match c.stack with
    | (.taskNew :: rest) :: lower =>
      if child ∉ c.blocks ∧ Separate head (child :: c.blocks) then
        some { c.goto ((taskNewRest child grown ++ rest) :: lower) with blocks := child :: c.blocks }
      else none
    | _ => none
  | .page newStack redirected =>
    match c.stack with
    | (.allocBlock child _ :: rest) :: lower =>
      if newStack.toNat + PAGE_SIZE.toNat ≤ 2 ^ 32 ∧ c.PageFree head newStack then
        some (c.goto ((copyStackRest child newStack redirected ++ rest) :: lower))
      else none
    | _ => none
  | .panic =>
    match c.stack with
    | (.taskNew :: _) :: lower | (.allocBlock _ _ :: _) :: lower => some (c.goto (KPANIC :: lower))
    | _ => none
  | .regs esp ebp =>
    if InPage (loadField c.mem c.owner .stackStart) esp then
      match c.stack with
      | (.capture curr :: rest) :: lower => some (c.captured cfg curr esp ebp rest lower)
      | (.readRegs child parent :: rest) :: lower => some (c.configured cfg child parent esp ebp rest lower)
      | _ => none
    else none

/-- One step. -/
def step : MemAct → Option MemState
  | .act a => c.stepAct head cfg a
  | .write a v => if Owned head c.blocks a then none else some { c with mem := c.mem.set a v }

/-- After `task_init`, with `m` the memory before and `root` the block that `kmalloc` returned. -/
def init (m : Mem) (root : TaskRef) : MemState where
  flag := true
  stack := [[.user, .cli, .halt]]
  owner := root
  current := root
  image := fun _ => none
  stored := []
  mem :=
    let m := Libc.memset m (addr root) 0 (UInt32.ofNat taskSize)
    let m := storeField m root .stackStart kernelStack
    let m := storeField m root .ticks TICKS_PER_SLICE
    LIST_INSERT_HEAD m head (addr root) nextTask
  blocks := [root]

end MemState

/-- The scheduler in memory. -/
def memMachine (head : UInt32) (cfg : Config) : Machine MemState MemAct := ⟨fun c a => c.step head cfg a⟩

end MoltarOS.Sched
