import MoltarOS.Lib.Asm
import MoltarOS.Lib.Machine
import MoltarOS.X86.Gates

/-!
# Interrupts, from the gate to `iret`

`x86/idt_handler.asm`: the stubs that the gates lead to, with the processor around them. An interrupt may come
wherever the processor is, in C code or between two instructions of a stub, and the handler it leads to is
interrupted in its turn. C code is free to do what it likes, but that it leaves alone what interrupts that are not
over have on the stack, and returns on the stack it was called on (switches of tasks are in `Sched.Machine`). The
flag RF, which the processor sets in what it pushes for a fault, is left out.

## What is proved

* `interrupt_resumes` — whatever came in between, an interrupt that is over leaves the context it found.
* `handler_registers` — each handler gets the `struct registers` of what it interrupts, and the number of the interrupt.

An alignment check is the exception: the processor pushes an error code that its stub does not reckon with
(`resumption_eq_iff`).
-/

namespace MoltarOS.X86

open MoltarOS.Lib MoltarOS.Lib.Word MoltarOS.Lib.Asm

/-! ### The code -/

/-- The labels that stubs jump to. -/
inductive Label where
  | idtSetup | irqSetup

/-- The functions in C. -/
inductive Handler where
  | idtHandler | irqHandler
  deriving DecidableEq

/-- The instructions of `idt_handler.asm`. -/
abbrev Code := List (Instr Label Handler)

/-- `isr_generate_noerr`. -/
def isrGenerateNoerr (n : ℕ) : Code := [.cli, .pushImm 0, .pushImm (UInt32.ofNat n), .jmp .idtSetup]

/-- `isr_generate_err`. -/
def isrGenerateErr (n : ℕ) : Code := [.cli, .pushImm (UInt32.ofNat n), .jmp .idtSetup]

/-- `irq_generate`. -/
def irqGenerate (intNum : ℕ) : Code := [.cli, .pushImm 0, .pushImm (UInt32.ofNat intNum), .jmp .irqSetup]

/-- The interrupts whose stubs are made by `isr_generate_err`. -/
def isrErr : List ℕ := [8, 10, 11, 12, 13, 14]

/-- `interrupt_service_request_n`. -/
def interruptServiceRequest (n : ℕ) : Code := if n ∈ isrErr then isrGenerateErr n else isrGenerateNoerr n

/-- `interrupt_request_n`. -/
def interruptRequest (n : ℕ) : Code := irqGenerate (32 + n)

/-- What `idt_setup` and `irq_setup` have in common: all but the function they call. -/
def setup (handler : Handler) : Code :=
  [.pusha, .fromSreg .eax .ds, .push .eax,
    .movImm16 .eax 0x10, .toSreg .ds .eax, .toSreg .es .eax, .toSreg .fs .eax, .toSreg .gs .eax, .toSreg .ss .eax,
    .push .esp, .call handler, .addEsp 4,
    .pop .ebx, .toSreg .ds .ebx, .toSreg .es .ebx, .toSreg .fs .ebx, .toSreg .gs .ebx, .toSreg .ss .ebx,
    .popa, .addEsp 8, .iret]

/-- `idt_setup`. -/
def idtSetup : Code := setup .idtHandler

/-- `irq_setup`. -/
def irqSetup : Code := setup .irqHandler

/-- The code at a label. -/
def Label.code : Label → Code
  | .idtSetup => X86.idtSetup
  | .irqSetup => X86.irqSetup

/-- `struct registers`. -/
@[ext] structure Registers where
  ds : UInt32
  edi : UInt32
  esi : UInt32
  ebp : UInt32
  esp : UInt32
  ebx : UInt32
  edx : UInt32
  ecx : UInt32
  eax : UInt32
  intNum : UInt32
  errCode : UInt32
  eip : UInt32
  cs : UInt32
  eflags : UInt32
  useresp : UInt32
  ss : UInt32

/-- The `struct registers` at an address. -/
def registersAt (m : Mem) (r : UInt32) : Registers :=
  let field k := m.load32 (r + UInt32.ofNat (4 * k))
  ⟨field 0, field 1, field 2, field 3, field 4, field 5, field 6, field 7, field 8, field 9, field 10, field 11,
    field 12, field 13, field 14, field 15⟩

/-! ### Interrupts -/

/-- What interrupts the processor. -/
inductive Event where
  /-- An exception, with the error code that the processor has for it. -/
  | exception (n : Fin 32) (code : UInt32)
  /-- One of the lines. -/
  | irq (line : Fin 16)
  /-- `int $255`, of `yield`. -/
  | int255

/-- The exceptions with an error code. -/
def errorCodes : List ℕ := [8, 10, 11, 12, 13, 14, 17]

namespace Event

/-- The number of the interrupt. -/
def vec : Event → ℕ
  | .exception n _ => n
  | .irq line => 32 + line
  | .int255 => 255

/-- The error code that the processor pushes. -/
def error : Event → Option UInt32
  | .exception n code => if (n : ℕ) ∈ errorCodes then some code else none
  | .irq _ | .int255 => none

/-- The stub that its gate leads to. -/
def stub : Event → Code
  | .exception n _ => interruptServiceRequest n
  | .irq line => interruptRequest line
  | .int255 => interruptServiceRequest 255

/-- Whether the interrupt flag keeps it off. -/
def Masked (flags : UInt32) : Event → Prop
  | .irq _ => flags &&& IF = 0
  | .exception _ _ | .int255 => False

instance (flags : UInt32) : (e : Event) → Decidable (Masked flags e)
  | .irq _ => inferInstanceAs (Decidable (flags &&& IF = 0))
  | .exception _ _ | .int255 => inferInstanceAs (Decidable False)

/-- The function in C that it leads to. -/
def handler : Event → Handler
  | .exception _ _ | .int255 => .idtHandler
  | .irq _ => .irqHandler

/-- Whether the processor pushes an error code exactly if the stub reckons with one. -/
def Matched (e : Event) : Prop := e.error.isSome ↔ e.vec ∈ isrErr

instance (e : Event) : Decidable e.Matched := inferInstanceAs (Decidable (_ ↔ _))

/-- The words that the stub takes for `eip`, `cs` and `eflags`. An error code that it does not reckon with comes
before them. -/
def frame (e : Event) (c : Context) : UInt32 × UInt32 × UInt32 :=
  match e.error with
  | none => (c.eip, c.cs.toUInt32, c.eflags)
  | some code => if e.vec ∈ isrErr then (c.eip, c.cs.toUInt32, c.eflags) else (code, c.eip, c.cs.toUInt32)

/-- What the stub takes for the error code. -/
def errCode (e : Event) : UInt32 := if e.vec ∈ isrErr then e.error.getD 0 else 0

/-- The stack pointer above the words of `frame`. -/
def top (e : Event) (c : Context) : UInt32 := if e.Matched then c.reg .esp else c.reg .esp - 4

/-- The context that `iret` goes on with. -/
def resumption (e : Event) (c : Context) : Context where
  reg := Function.update c.reg .esp (e.top c)
  sreg := c.sreg
  cs := (e.frame c).2.1.toUInt16
  eip := (e.frame c).1
  eflags := (e.frame c).2.2

/-- The processor pushes an error code wherever the stub reckons with one. -/
theorem error_isSome {e : Event} (h : e.vec ∈ isrErr) : e.error.isSome := by
  have hlist : ∀ n ∈ isrErr, n ∈ errorCodes ∧ n < 32 := by decide
  cases e with
  | exception n code => simp only [error, if_pos (hlist n h).1, Option.isSome_some]
  | irq line =>
    have hlt := (hlist _ h).2
    simp only [vec] at hlt
    omega
  | int255 => exact absurd (hlist _ h).2 (by decide)

theorem stub_of_mem {e : Event} (h : e.vec ∈ isrErr) :
    ∃ l : Label, l.code = setup e.handler ∧ e.stub = [.cli, .pushImm (UInt32.ofNat e.vec), .jmp l] := by
  cases e with
  | exception n code => exact ⟨.idtSetup, rfl, if_pos h⟩
  | irq line => exact absurd (error_isSome h) (by simp [error])
  | int255 => exact absurd (error_isSome h) (by simp [error])

theorem stub_of_not_mem {e : Event} (h : e.vec ∉ isrErr) :
    ∃ l : Label, l.code = setup e.handler ∧ e.stub = [.cli, .pushImm 0, .pushImm (UInt32.ofNat e.vec), .jmp l] := by
  cases e with
  | exception n code => exact ⟨.idtSetup, rfl, if_neg h⟩
  | irq line => exact ⟨.irqSetup, rfl, rfl⟩
  | int255 => exact ⟨.idtSetup, rfl, rfl⟩

/-- The words of `frame` are those of the context, where the stub reckons with the error code. -/
theorem Matched.frame_eq {e : Event} (h : e.Matched) (c : Context) : e.frame c = (c.eip, c.cs.toUInt32, c.eflags) := by
  rw [frame]
  split
  · rfl
  · next code hcode => exact if_pos (h.mp (by rw [hcode]; rfl))

/-- What it takes for the error code is that of the processor, or 0. -/
theorem Matched.errCode_eq {e : Event} (h : e.Matched) : e.errCode = e.error.getD 0 := by
  rw [errCode]
  split_ifs with hvec
  · rfl
  · rw [Option.not_isSome_iff_eq_none.mp (mt h.mp hvec)]
    rfl

/-- An interrupt leaves the context that it found exactly if the stub reckons with the error code. -/
theorem resumption_eq_iff (e : Event) (c : Context) : e.resumption c = c ↔ e.Matched := by
  constructor
  · intro heq
    by_contra hmatched
    have hesp : e.top c = c.reg .esp :=
      (Function.update_self Reg.esp (e.top c) c.reg).symm.trans (congrArg (·.reg .esp) heq)
    rw [top, if_neg hmatched] at hesp
    have hzero : (4 : UInt32) = 0 := by grind
    cases hzero
  · intro hmatched
    rw [resumption, hmatched.frame_eq, top, if_pos hmatched, Function.update_eq_self, UInt16.toUInt16_toUInt32]

/-- The stubs reckon with the error codes of all exceptions but the alignment check. -/
theorem matched_iff (e : Event) : e.Matched ↔ e.vec ≠ 17 := by
  have hlist : ∀ n : ℕ, n ∈ errorCodes ↔ n = 17 ∨ n ∈ isrErr := by simp [errorCodes, isrErr]; omega
  have hnot : 17 ∉ isrErr := by decide
  cases e with
  | exception n code =>
    simp only [Matched, error, vec, hlist]
    split_ifs with h
    · rcases h with h | h
      · simp [h, hnot]
      · have hne : (n : ℕ) ≠ 17 := fun he => hnot (he ▸ h)
        simp [h, hne]
    · rw [not_or] at h
      simp [h]
  | irq line =>
    have hmem : 32 + (line : ℕ) ∉ isrErr := fun h => absurd (error_isSome (e := .irq line) h) (by simp [error])
    simp only [Matched, error, vec, Option.isSome_none, Bool.false_eq_true, hmem, true_iff]
    omega
  | int255 => decide

end Event

/-- The stubs in memory, at the addresses that `idt_init` has for them. -/
structure Stubs extends Image Label Handler where
  /-- `interrupt_service_request_n`. -/
  isr : ℕ → UInt32
  /-- `interrupt_request_n`. -/
  irq : ℕ → UInt32
  loaded_isr : ∀ n, n < 32 ∨ n = 255 → Loaded toImage (isr n) (interruptServiceRequest n)
  loaded_irq : ∀ n < 16, Loaded toImage (irq n) (interruptRequest n)
  loaded_label : ∀ l, Loaded toImage (label l) l.code
  /-- The functions are not among them. -/
  entry_c : ∀ f, text (entry f) = none

/-- An interrupt that is not over. -/
structure Pending where
  /-- What it was. -/
  event : Event
  /-- What it interrupted. -/
  ctx : Context

/-- The processor, and the interrupts that are not over, the last one first. -/
structure Core where
  /-- The processor. -/
  cpu : Cpu
  /-- The interrupts. -/
  pending : List Pending

/-- The stack pointer above what an interrupt has on the stack. -/
def Pending.top (p : Pending) : UInt32 := p.event.top p.ctx

/-- Whether a byte is in the `struct registers` of an interrupt, or the return address of its handler. -/
def Pending.Saved (p : Pending) (x : UInt32) : Prop := dist (p.top - 56) x < 56 ∨ dist (p.top - 64) x < 4

instance (p : Pending) (x : UInt32) : Decidable (p.Saved x) := inferInstanceAs (Decidable (_ ∨ _))

/-- Whether a byte is kept for interrupts that are not over. The handler of the last one may write to its argument. -/
def Guarded : List Pending → UInt32 → Prop
  | [], _ => False
  | p :: ps, x => p.Saved x ∨ ∃ q ∈ ps, dist (q.top - 64) x < 64

instance : (pending : List Pending) → (x : UInt32) → Decidable (Guarded pending x)
  | [], _ => inferInstanceAs (Decidable False)
  | _ :: ps, _ => @instDecidableOr _ _ _ (List.decidableBEx _ ps)

/-- Whether a stack pointer is below what the last interrupt has on the stack. -/
def Below : List Pending → UInt32 → Prop
  | [], _ => True
  | p :: _, esp => esp.toNat + 64 ≤ p.top.toNat

instance : (pending : List Pending) → (esp : UInt32) → Decidable (Below pending esp)
  | [], _ => inferInstanceAs (Decidable True)
  | p :: _, esp => inferInstanceAs (Decidable (esp.toNat + 64 ≤ p.top.toNat))

/-- What happens next. -/
inductive CoreAct where
  /-- An instruction of a stub. -/
  | step
  /-- An interrupt. -/
  | interrupt (e : Event)
  /-- C code goes on, with other registers and flags. -/
  | code (reg : Reg → UInt32) (eip eflags : UInt32)
  /-- C code writes a byte. -/
  | write (a : UInt32) (v : UInt8)
  /-- A handler returns. -/
  | ret

namespace Core

variable (S : Stubs) (s : Core)

/-- The processor takes an interrupt: its gate clears the flags IF, TF, NT, RF and VM. -/
def deliver (e : Event) : Core :=
  let c := s.cpu.pushWords ([s.cpu.eflags, s.cpu.cs.toUInt32, s.cpu.eip] ++ e.error.toList)
  let gate := gateOf S.isr S.irq (UInt8.ofNat e.vec)
  { cpu := { c with cs := gate.selector, eip := gate.offset, eflags := s.cpu.eflags &&& ~~~0x34300 }
    pending := ⟨e, s.cpu.toContext⟩ :: s.pending }

/-- One step. -/
def step : CoreAct → Option Core
  | .step =>
    match S.text s.cpu.eip with
    | none => none
    | some (.iret, next) => some ⟨exec S.toImage next s.cpu .iret, s.pending.tail⟩
    | some (i, next) => some ⟨exec S.toImage next s.cpu i, s.pending⟩
  | .interrupt e => if e.Masked s.cpu.eflags ∨ (s.cpu.reg .esp).toNat < 68 then none else some (s.deliver S e)
  | .code reg eip eflags =>
    if S.text s.cpu.eip = none ∧ S.text eip = none ∧ Below s.pending (reg .esp) then
      some { s with cpu := { s.cpu with reg := reg, eip := eip, eflags := eflags } }
    else none
  | .write a v =>
    if S.text s.cpu.eip = none ∧ ¬ Guarded s.pending a
    then some { s with cpu := { s.cpu with mem := s.cpu.mem.set a v } } else none
  | .ret =>
    match s.pending with
    | [] => none
    | p :: _ => if S.text s.cpu.eip = none ∧ s.cpu.reg .esp = p.top - 64 then some { s with cpu := s.cpu.ret } else none

end Core

/-- The processor with the stubs. -/
def coreMachine (S : Stubs) : Machine Core CoreAct := ⟨fun s a => s.step S a⟩

/-! ### The stubs by themselves -/

/-- The data segments in the kernel. -/
def kernelData : Sreg → UInt16 := fun _ => 0x10

namespace Pending

variable (p : Pending)

/-- The context that `iret` goes on with. -/
def target : Context := p.event.resumption p.ctx

/-- The words of the `struct registers`, up to `eflags`. -/
def savedWords (ds : UInt32) : List UInt32 :=
  [ds, p.ctx.reg .edi, p.ctx.reg .esi, p.ctx.reg .ebp, p.top - 20, p.ctx.reg .ebx, p.ctx.reg .edx, p.ctx.reg .ecx,
    p.ctx.reg .eax, UInt32.ofNat p.event.vec, p.event.errCode, (p.event.frame p.ctx).1, (p.event.frame p.ctx).2.1,
    (p.event.frame p.ctx).2.2]

/-- The `struct registers` of what is interrupted, with a word for `ds`. The stack pointer is the one that `pusha`
found, and as there is no change of privilege, the last two words are those of the stack that was interrupted. -/
def registers (m : Mem) (ds : UInt32) : Registers where
  ds := ds
  edi := p.ctx.reg .edi
  esi := p.ctx.reg .esi
  ebp := p.ctx.reg .ebp
  esp := p.ctx.reg .esp - 20
  ebx := p.ctx.reg .ebx
  edx := p.ctx.reg .edx
  ecx := p.ctx.reg .ecx
  eax := p.ctx.reg .eax
  intNum := UInt32.ofNat p.event.vec
  errCode := p.event.error.getD 0
  eip := p.ctx.eip
  cs := p.ctx.cs.toUInt32
  eflags := p.ctx.eflags
  useresp := m.load32 (p.ctx.reg .esp)
  ss := m.load32 (p.ctx.reg .esp + 4)

/-- A handler is called as it should be. -/
def Called (f : Handler) (v : View) : Prop :=
  f = p.event.handler ∧ v.reg .esp = p.top - 60 ∧ ∃ ds : UInt32, ds.toUInt16 = 0x10 ∧
    v.words = (p.top - 56) :: p.savedWords ds

/-- What holds around `idt_setup` and `irq_setup`. -/
def setupEnv : Env Label Handler := ⟨16, kernelData, fun _ _ => False, p.Called, fun _ => 1⟩

/-- What holds around a stub. -/
def env : Env Label Handler := ⟨16, kernelData, fun l v => wp p.setupEnv (· = p.target) l.code v, p.Called, fun _ => 1⟩

/-- `idt_setup` and `irq_setup` behind the call, whatever the handler has done to the registers and its argument. -/
theorem wp_leave (hdata : p.ctx.sreg = kernelData) {reg : Reg → UInt32} (hesp : reg .esp = p.top - 60) {ds arg : UInt32}
    (hds : ds.toUInt16 = 0x10) :
    wp p.setupEnv (· = p.target)
      [.addEsp 4, .pop .ebx, .toSreg .ds .ebx, .toSreg .es .ebx, .toSreg .fs .ebx, .toSreg .gs .ebx, .toSreg .ss .ebx,
        .popa, .addEsp 8, .iret] ⟨reg, arg :: p.savedWords ds⟩ := by
  -- `bx` is what was in `ds`
  have hbx : ∀ s, ds.toUInt16 = p.setupEnv.sreg s := fun _ => hds
  refine ⟨by decide, by simp, by simp, by simp [savedWords], hbx .ds, hbx .es, hbx .fs, hbx .gs, hbx .ss,
    by simp [savedWords], by decide, by simp [savedWords, View.popAll], by simp [savedWords, View.popAll], ?_⟩
  refine Context.ext (funext fun r => ?_) hdata.symm rfl rfl rfl
  have htop : p.top - 60 + 4 + 4 + 32 + 8 + 12 = p.top := by grind
  cases r with
  | esp =>
    simp [View.returned, View.popAll, hesp, target, Event.resumption]
    exact htop
  | eax | ecx | edx | ebx | ebp | esi | edi => rfl

/-- `idt_setup` and `irq_setup`. -/
theorem wp_setup (hdata : p.ctx.sreg = kernelData) {v : View}
    (hreg : v.reg = Function.update p.ctx.reg .esp (p.top - 20))
    (hwords : v.words = [UInt32.ofNat p.event.vec, p.event.errCode, (p.event.frame p.ctx).1, (p.event.frame p.ctx).2.1,
      (p.event.frame p.ctx).2.2]) : wp p.setupEnv (· = p.target) (setup p.event.handler) v := by
  obtain ⟨reg, words⟩ := v
  subst hreg hwords
  refine ⟨by simp [setupEnv], ?_⟩
  rw [View.pushWords_pusha]
  have hesp : p.top - 20 - 32 - 4 = p.top - 56 := by grind
  have hesp' : p.top - 56 - 4 = p.top - 60 := by grind
  have hds : (setLow (p.ctx.reg .eax) 0x10).toUInt16 = 0x10 := toUInt16_setLow _ _
  have hax : ∀ s w, (setLow w 0x10).toUInt16 = p.setupEnv.sreg s := fun _ w => toUInt16_setLow w _
  refine ⟨by simp, by simp [setupEnv], by simp, hax .ds _, hax .es _, hax .fs _, hax .gs _, hax .ss _,
    by simp [setupEnv], by simp [setupEnv], by simp [setupEnv],
    ⟨rfl, by simp [hesp, hesp'], _, hds, by simp [hesp, savedWords, setupEnv, kernelData]⟩,
    fun reg args hreg hargs => ?_⟩
  obtain ⟨arg, rfl⟩ := List.length_eq_one_iff.mp hargs
  exact p.wp_leave hdata (hreg.trans (by simp [hesp, hesp'])) hds

variable {p} {l : Label} {v : View}

/-- A stub that makes an error code up. -/
theorem wp_noerr (hdata : p.ctx.sreg = kernelData) (hl : l.code = setup p.event.handler) (herr : p.event.errCode = 0)
    (hreg : v.reg = Function.update p.ctx.reg .esp (p.top - 12))
    (hwords : v.words = [(p.event.frame p.ctx).1, (p.event.frame p.ctx).2.1, (p.event.frame p.ctx).2.2]) :
    wp p.env (· = p.target) [.cli, .pushImm 0, .pushImm (UInt32.ofNat p.event.vec), .jmp l] v := by
  refine ⟨by simp [hwords, env], by simp [hwords, env], ?_⟩
  show wp p.setupEnv (· = p.target) l.code _
  rw [hl]
  refine p.wp_setup hdata ?_ (by simp [hwords, herr])
  have hesp : p.top - 12 - 4 - 4 = p.top - 20 := by grind
  simp [hreg, hesp]

/-- A stub that takes the processor's. -/
theorem wp_err (hdata : p.ctx.sreg = kernelData) (hl : l.code = setup p.event.handler)
    (hreg : v.reg = Function.update p.ctx.reg .esp (p.top - 16))
    (hwords : v.words = [p.event.errCode, (p.event.frame p.ctx).1, (p.event.frame p.ctx).2.1,
      (p.event.frame p.ctx).2.2]) :
    wp p.env (· = p.target) [.cli, .pushImm (UInt32.ofNat p.event.vec), .jmp l] v := by
  refine ⟨by simp [hwords, env], ?_⟩
  show wp p.setupEnv (· = p.target) l.code _
  rw [hl]
  refine p.wp_setup hdata ?_ (by simp [hwords])
  have hesp : p.top - 16 - 4 = p.top - 20 := by grind
  simp [hreg, hesp]

end Pending

/-! ### An interrupt is taken -/

section Deliver

variable {S : Stubs} {s : Core} {e : Event}

/-- The gates lead to the stubs. -/
theorem gate_loaded (S : Stubs) (e : Event) :
    Loaded S.toImage (gateOf S.isr S.irq (UInt8.ofNat e.vec)).offset e.stub := by
  cases e with
  | exception n code =>
    rw [Event.vec, gateOf_isr S.isr S.irq (by simp)]
    exact S.loaded_isr n (.inl n.isLt)
  | irq line =>
    rw [Event.vec, gateOf_irq S.isr S.irq (by simp)]
    exact S.loaded_irq line line.isLt
  | int255 =>
    rw [Event.vec, gateOf_isr S.isr S.irq (by simp)]
    exact S.loaded_isr 255 (.inr rfl)

/-- The stack pointer above what an interrupt has on the stack. -/
theorem toNat_top (e : Event) {c : Context} (h : 68 ≤ (c.reg .esp).toNat) :
    (e.top c).toNat ≤ (c.reg .esp).toNat ∧ 64 ≤ (e.top c).toNat := by
  have hsub : (c.reg .esp - 4).toNat = (c.reg .esp).toNat - 4 := toNat_sub_of_le (by show 4 ≤ _; omega)
  rw [Event.top]
  split_ifs
  · omega
  · omega

/-- The stub goes on with the words that were just pushed from `c` on. -/
theorem deliver_of_pushWords (c : Cpu) (ws : List UInt32) (hdata : c.sreg = kernelData)
    (htop : e.top s.cpu.toContext = c.reg .esp) (hroom : 64 ≤ (c.reg .esp).toNat) (hlen : ws.length ≤ 4)
    (hcpu : s.cpu.pushWords ([s.cpu.eflags, s.cpu.cs.toUInt32, s.cpu.eip] ++ e.error.toList) = c.pushWords ws)
    (hwp : wp (Pending.env ⟨e, s.cpu.toContext⟩) (· = Pending.target ⟨e, s.cpu.toContext⟩) e.stub
      ⟨Function.update c.reg .esp (c.reg .esp - UInt32.ofNat (4 * ws.length)), ws.reverse⟩) :
    SameAbove (c.reg .esp).toNat c.mem (s.deliver S e).cpu.mem ∧
      ∃ v, Working (Pending.env ⟨e, s.cpu.toContext⟩) (· = Pending.target ⟨e, s.cpu.toContext⟩) e.stub
        (s.deliver S e).cpu (e.top s.cpu.toContext).toNat v := by
  obtain ⟨hshows, habove⟩ := (Shows.empty c).pushWords ws (c.reg .esp).toNat_lt (by simp; omega)
  have hreg : (s.deliver S e).cpu.reg = (c.pushWords ws).reg := by simp only [Core.deliver, hcpu]
  have hsreg : (s.deliver S e).cpu.sreg = (c.pushWords ws).sreg := by simp only [Core.deliver, hcpu]
  have hmem : (s.deliver S e).cpu.mem = (c.pushWords ws).mem := by simp only [Core.deliver, hcpu]
  rw [View.pushWords_eq, List.append_nil] at hshows
  rw [← hmem] at habove
  rw [htop]
  refine ⟨habove, _, hshows.same hreg hmem, hsreg.trans ((c.pushWords_sreg ws).trans hdata), ?_, hwp⟩
  exact (List.length_reverse.trans_le hlen).trans (by simp [Pending.env])

/-- The processor is at the beginning of the stub, with its words on the stack. -/
theorem deliver_working (hdata : s.cpu.sreg = kernelData) (hroom : 68 ≤ (s.cpu.reg .esp).toNat) :
    SameAbove (s.cpu.reg .esp).toNat s.cpu.mem (s.deliver S e).cpu.mem ∧
      ∃ v, Working (Pending.env ⟨e, s.cpu.toContext⟩) (· = Pending.target ⟨e, s.cpu.toContext⟩) e.stub
        (s.deliver S e).cpu (e.top s.cpu.toContext).toNat v := by
  by_cases hvec : e.vec ∈ isrErr
  · -- the error code is on top
    obtain ⟨code, hcode⟩ := Option.isSome_iff_exists.mp (Event.error_isSome hvec)
    obtain ⟨l, hl, hstub⟩ := Event.stub_of_mem hvec
    have hframe : e.frame s.cpu.toContext = (s.cpu.eip, s.cpu.cs.toUInt32, s.cpu.eflags) := by
      rw [Event.frame, hcode]
      exact if_pos hvec
    have htop : e.top s.cpu.toContext = s.cpu.reg .esp := if_pos (by simp [Event.Matched, hcode, hvec])
    refine deliver_of_pushWords s.cpu [s.cpu.eflags, s.cpu.cs.toUInt32, s.cpu.eip, code] hdata htop (by omega) (by simp)
      (by rw [hcode]; rfl) ?_
    rw [hstub]
    refine Pending.wp_err hdata hl (by simp [Pending.top, htop]) ?_
    simp [hframe, Event.errCode, hvec, hcode]
  obtain ⟨l, hl, hstub⟩ := Event.stub_of_not_mem hvec
  have herr : e.errCode = 0 := if_neg hvec
  cases hcode : e.error with
  | none =>
    have hframe : e.frame s.cpu.toContext = (s.cpu.eip, s.cpu.cs.toUInt32, s.cpu.eflags) := by rw [Event.frame, hcode]
    have htop : e.top s.cpu.toContext = s.cpu.reg .esp := if_pos (by simp [Event.Matched, hcode, hvec])
    refine deliver_of_pushWords s.cpu [s.cpu.eflags, s.cpu.cs.toUInt32, s.cpu.eip] hdata htop (by omega) (by simp)
      (by rw [hcode]; rfl) ?_
    rw [hstub]
    exact Pending.wp_noerr hdata hl herr (by simp [Pending.top, htop]) (by simp [hframe])
  | some code =>
    -- the stub takes the error code, `eip` and `cs` for its three words, and the flags for what was interrupted
    have hframe : e.frame s.cpu.toContext = (code, s.cpu.eip, s.cpu.cs.toUInt32) := by
      rw [Event.frame, hcode]
      exact if_neg hvec
    have htop : e.top s.cpu.toContext = s.cpu.reg .esp - 4 := if_neg (by simp [Event.Matched, hcode, hvec])
    have hesp : (s.cpu.pushWord s.cpu.eflags).reg .esp = s.cpu.reg .esp - 4 := by simp [Cpu.pushWord]
    have hsub : (s.cpu.reg .esp - 4).toNat = (s.cpu.reg .esp).toNat - 4 := toNat_sub_of_le (by show 4 ≤ _; omega)
    have hpush := ((Shows.empty s.cpu).pushWord (s.cpu.reg .esp).toNat_lt (by simp; omega) s.cpu.eflags).2
    have hwp := deliver_of_pushWords (S := S) (s := s) (e := e) (s.cpu.pushWord s.cpu.eflags)
      [s.cpu.cs.toUInt32, s.cpu.eip, code] hdata (htop.trans hesp.symm) (by rw [hesp]; omega) (by simp)
      (by rw [hcode, ← Cpu.pushWords_cons]; rfl) (by
        rw [hstub]
        refine Pending.wp_noerr hdata hl herr ?_ (by simp [hframe])
        simp [Pending.top, htop, Cpu.pushWord])
    exact ⟨hpush.trans hwp.1 (by rw [hesp]; omega), hwp.2⟩

end Deliver

/-! ### Interrupts that are not over -/

/-- A context in the course of an interrupt: in its stub, with the words that the code is to have, or in its handler,
with what the code behind the call will need. -/
inductive Inside (S : Stubs) (p : Pending) (c : Context) (m : Mem) : Prop where
  | stub {code : Code} {v : View} (loaded : Loaded S.toImage c.eip code)
      (working : Working p.env (· = p.target) code ⟨c, m⟩ p.top.toNat v)
  | handler {f : Handler} {code : Code} {v : View} {ret : UInt32} {args : List UInt32} (running : S.text c.eip = none)
      (sreg : c.sreg = kernelData) (below : (c.reg .esp).toNat + 64 ≤ p.top.toNat)
      (goal : wp p.env (· = p.target) (.call f :: code) v) (loaded : Loaded S.toImage ret code) (one : args.length = 1)
      (fits : Fits m (p.top - 64) (ret :: (args ++ v.words.drop 1)) p.top.toNat)

/-- Interrupts in the course of each other, the last one first, and C code at the bottom. -/
def Nested (S : Stubs) (m : Mem) : Context → List Pending → Prop
  | c, [] => S.text c.eip = none ∧ c.sreg = kernelData
  | c, p :: ps => Inside S p c m ∧ 68 ≤ (p.ctx.reg .esp).toNat ∧ Nested S m p.ctx ps

/-- What holds in all states. -/
def Core.Inv (S : Stubs) (s : Core) : Prop := Nested S s.cpu.mem s.cpu.toContext s.pending

section Invariant

variable {S : Stubs} {p : Pending} {c : Context} {m m' : Mem} {pending : List Pending}

theorem Inside.sreg (h : Inside S p c m) : c.sreg = kernelData := by
  cases h with
  | stub _ working => exact working.sreg
  | handler _ sreg => exact sreg

theorem Nested.sreg (h : Nested S m c pending) : c.sreg = kernelData := by
  cases pending with
  | nil => exact h.2
  | cons p ps => exact h.1.sreg

/-- The stack pointer is below what was interrupted. -/
theorem Inside.esp_le (h : Inside S p c m) : (c.reg .esp).toNat ≤ p.top.toNat := by
  cases h with
  | stub _ working =>
    have htop := working.shows.fits.top
    change (c.reg .esp).toNat + _ = _ at htop
    omega
  | handler _ _ below => omega

/-- It depends on the 64 bytes below the top. -/
theorem Inside.congr (h : Inside S p c m) (h64 : 64 ≤ p.top.toNat)
    (hmem : ∀ x : UInt32, (c.reg .esp).toNat ≤ x.toNat → p.top.toNat ≤ x.toNat + 64 →
      x.toNat < p.top.toNat → m' x = m x) :
    Inside S p c m' := by
  have hlt := p.top.toNat_lt
  cases h with
  | stub loaded working =>
    obtain ⟨hshows, hsreg, hlen, hwp⟩ := working
    have htop := hshows.fits.top
    change (c.reg .esp).toNat + _ = _ at htop
    change _ ≤ 16 at hlen
    refine .stub loaded ⟨⟨hshows.reg, hshows.fits.congr hlt.le fun x hlo hhi => hmem x hlo ?_ hhi⟩, hsreg, hlen, hwp⟩
    change (c.reg .esp).toNat ≤ _ at hlo
    omega
  | handler running sreg below goal loaded one fits =>
    have hbase : (p.top - 64).toNat = p.top.toNat - 64 := toNat_sub_of_le h64
    refine .handler running sreg below goal loaded one (fits.congr hlt.le fun x hlo hhi => hmem x ?_ ?_ hhi)
    · omega
    · omega

/-- Writing below the stack pointer changes nothing for what is above. -/
theorem Nested.congr (h : Nested S m c pending) (hmem : SameAbove (c.reg .esp).toNat m m') : Nested S m' c pending := by
  induction pending generalizing c with
  | nil => exact h
  | cons p ps ih =>
    obtain ⟨hin, hroom, hrest⟩ := h
    obtain ⟨hle, h64⟩ := toNat_top p.event hroom
    exact ⟨hin.congr h64 fun x hlo _ _ => hmem x hlo, hroom, ih hrest (hmem.mono (hin.esp_le.trans hle))⟩

/-- Nor does writing elsewhere. -/
theorem Nested.write (h : Nested S m c pending) {a : UInt32}
    (ha : ∀ p ∈ pending, 64 ≤ dist (p.top - 64) a) (v : UInt8) :
    Nested S (m.set a v) c pending := by
  induction pending generalizing c with
  | nil => exact h
  | cons p ps ih =>
    obtain ⟨hin, hroom, hrest⟩ := h
    obtain ⟨-, h64⟩ := toNat_top p.event hroom
    have hlt := p.top.toNat_lt
    have hbase : (p.top - 64).toNat = p.top.toNat - 64 := toNat_sub_of_le h64
    refine ⟨hin.congr h64 fun x _ hlo hhi => Mem.set_of_ne m v ?_, hroom, ih hrest fun q hq =>
      ha q (List.mem_cons_of_mem p hq)⟩
    rintro rfl
    have hin := (dist_lt_iff (a := p.top - 64) (b := x) (n := 64) (by omega)).mpr (by omega)
    exact absurd hin (not_lt.mpr (ha p List.mem_cons_self))

/-- In C code, an interrupt that is not over is in its handler. -/
theorem Inside.handler_of_running (h : Inside S p c m) (hc : S.text c.eip = none) :
    c.sreg = kernelData ∧ (c.reg .esp).toNat + 64 ≤ p.top.toNat ∧
    ∃ (f : Handler) (code : Code) (v : View) (ret : UInt32)
      (args : List UInt32), wp p.env (· = p.target) (.call f :: code) v ∧ Loaded S.toImage ret code ∧ args.length = 1 ∧
        Fits m (p.top - 64) (ret :: (args ++ v.words.drop 1)) p.top.toNat := by
  cases h with
  | stub loaded working =>
    next code v =>
    cases code with
    | nil => exact working.goal.elim
    | cons i code =>
      obtain ⟨next, htext, -⟩ := loaded
      rw [hc] at htext
      cases htext
  | handler running sreg below goal loaded one fits => exact ⟨sreg, below, _, _, _, _, _, goal, loaded, one, fits⟩

/-- The handler may write to its argument. -/
theorem Inside.write (h : Inside S p c m) (hc : S.text c.eip = none) {a : UInt32} (ha : ¬ p.Saved a)
    (h64 : 64 ≤ p.top.toNat) (v : UInt8) :
    Inside S p c (m.set a v) := by
  obtain ⟨hsreg, hbelow, f, code, u, ret, args, hgoal, hloaded, hone, hfits⟩ := h.handler_of_running hc
  obtain ⟨arg, rfl⟩ := List.length_eq_one_iff.mp hone
  have hlt := p.top.toNat_lt
  have hlen : u.words.length = 15 := by
    obtain ⟨-, -, ⟨-, -, ds, -, hwords⟩, -⟩ := hgoal
    rw [hwords]
    rfl
  have hbase : (p.top - 64).toNat = p.top.toNat - 64 := toNat_sub_of_le h64
  have hbase' : (p.top - 64 + 4 + 4).toNat = p.top.toNat - 56 := by
    rw [show p.top - 64 + 4 + 4 = p.top - 56 by grind]
    exact toNat_sub_of_le (by show 56 ≤ _; omega)
  rw [Pending.Saved, not_or] at ha
  suffices hfits' : Fits (m.set a v) (p.top - 64)
      (ret :: ([(m.set a v).load32 (p.top - 64 + 4)] ++ u.words.drop 1)) p.top.toNat from
    .handler hc hsreg hbelow hgoal hloaded rfl hfits'
  refine ⟨⟨?_, rfl, ?_⟩, hfits.top⟩
  · rw [← hfits.words.1]
    refine Mem.load32_congr fun x hx => Mem.set_of_ne m v ?_
    rintro rfl
    exact ha.2 hx
  · have hrest : Words m (p.top - 64 + 4 + 4) (u.words.drop 1) := hfits.words.2.2
    refine hrest.congr ?_ fun x hlo hhi => Mem.set_of_ne m v ?_
    · rw [hbase', List.length_drop, hlen]
      omega
    · rintro rfl
      rw [hbase'] at hlo hhi
      rw [List.length_drop, hlen] at hhi
      have hbase'' : (p.top - 56).toNat = p.top.toNat - 56 := toNat_sub_of_le (by show 56 ≤ _; omega)
      exact ha.1 ((dist_lt_iff (by omega)).mpr (by omega))

/-- The state of an interrupt after an instruction of its stub. -/
theorem Inside.step {cpu : Cpu} (h : Inside S p cpu.toContext cpu.mem) (h64 : 64 ≤ p.top.toNat)
    {i : Instr Label Handler} {next : UInt32} (hi : S.text cpu.eip = some (i, next)) :
    SameAbove (cpu.reg .esp).toNat cpu.mem (exec S.toImage next cpu i).mem ∧
      (i = .iret ∧ (exec S.toImage next cpu i).toContext = p.target ∧ (exec S.toImage next cpu i).mem = cpu.mem ∨
        i ≠ .iret ∧ Inside S p (exec S.toImage next cpu i).toContext (exec S.toImage next cpu i).mem) := by
  have hlt := p.top.toNat_lt
  cases h with
  | handler running =>
    rw [running] at hi
    cases hi
  | stub loaded working =>
    next code v =>
    cases code with
    | nil => exact working.goal.elim
    | cons i' code =>
      obtain ⟨next', htext, hrest⟩ := loaded
      rw [hi] at htext
      cases htext
      have hroom : 4 * p.env.depth ≤ p.top.toNat := h64
      cases i with
      | jmp l =>
        refine ⟨.refl _ _, .inr ⟨nofun, .stub (S.loaded_label l)
          ⟨working.shows.same rfl rfl, working.sreg, working.room, ?_⟩⟩⟩
        exact wp.mono (E := p.setupEnv) working.goal le_rfl rfl rfl nofun fun _ _ hcall => hcall
      | call f =>
        obtain ⟨hfits, habove⟩ := wp_call working hlt hroom S.toImage next
        obtain ⟨-, -, ⟨-, -, ds, -, hwords⟩, -⟩ := working.goal
        rw [hwords] at hfits
        have hlen : ((exec S.toImage next cpu (.call f)).reg .esp).toNat + 4 * 16 = p.top.toNat := hfits.top
        have hbase : (p.top - 64).toNat = p.top.toNat - 64 := toNat_sub_of_le h64
        have hesp : (exec S.toImage next cpu (.call f)).reg .esp = p.top - 64 := UInt32.toNat_inj.mp (by omega)
        have hfits' : Fits (exec S.toImage next cpu (.call f)).mem (p.top - 64)
            (next :: ([p.top - 56] ++ v.words.drop 1)) p.top.toNat := by
          rw [hesp] at hfits
          rw [hwords]
          exact hfits
        exact ⟨habove, .inr ⟨nofun, .handler (S.entry_c f) working.sreg (by omega) working.goal hrest rfl hfits'⟩⟩
      | iret =>
        obtain ⟨hq, hmem⟩ := wp_iret working S.toImage next
        exact ⟨hmem ▸ .refl _ _, .inl ⟨rfl, hq, hmem⟩⟩
      | _ =>
        obtain ⟨heip, habove, v', hworking⟩ := wp_exec working hlt hroom trivial S.toImage next
        exact ⟨habove, .inr ⟨nofun, .stub (heip ▸ hrest) hworking⟩⟩

/-- A handler that returns: the code behind the call goes on. -/
theorem Inside.ret {cpu : Cpu} (h : Inside S p cpu.toContext cpu.mem) (hc : S.text cpu.eip = none)
    (hesp : cpu.reg .esp = p.top - 64) :
    Inside S p cpu.ret.toContext cpu.ret.mem := by
  obtain ⟨hsreg, -, f, code, v, ret, args, hgoal, hloaded, hone, hfits⟩ := h.handler_of_running hc
  have hroom : v.words.length + 1 ≤ p.env.depth := hgoal.1
  have hv : v.reg .esp = p.top - 60 := hgoal.2.2.1.2.1
  obtain ⟨heip, v', hworking⟩ :=
    wp_ret hgoal (by omega) p.top.toNat_lt hsreg (by rw [hesp, hv]; grind) hone (by rw [hesp]; exact hfits)
  exact .stub (heip ▸ hloaded) hworking

end Invariant

/-! ### Steps -/

section Steps

variable {S : Stubs} {s t u : Core} {a : CoreAct} {e : Event}

/-- The beginning of an interrupt. -/
theorem Core.interrupt_spec (h : s.Inv S) (hs : s.step S (.interrupt e) = some t) :
    t.pending = ⟨e, s.cpu.toContext⟩ :: s.pending ∧ t.Inv S := by
  simp only [Core.step] at hs
  split_ifs at hs with hguard
  cases hs
  rw [not_or, not_lt] at hguard
  obtain ⟨habove, v, hworking⟩ := deliver_working (S := S) (e := e) h.sreg hguard.2
  exact ⟨rfl, .stub (gate_loaded S e) hworking, hguard.2, h.congr habove⟩

/-- What a step does: it begins an interrupt, it ends the last one, or neither. -/
theorem Core.step_spec (h : s.Inv S) (hs : s.step S a = some t) :
    (t.pending = s.pending ∧ t.Inv S) ∨
      (∃ e, a = .interrupt e ∧ t.pending = ⟨e, s.cpu.toContext⟩ :: s.pending ∧ t.Inv S) ∨
      ∃ p, s.pending = p :: t.pending ∧ t.cpu.toContext = p.target ∧ (p.event.Matched → t.Inv S) := by
  obtain ⟨cpu, pending⟩ := s
  cases a with
  | step =>
    cases hi : S.text cpu.eip with
    | none => simp [Core.step, hi] at hs
    | some inext =>
      obtain ⟨i, next⟩ := inext
      cases pending with
      | nil =>
        have hrunning := h.1
        rw [hi] at hrunning
        cases hrunning
      | cons p ps =>
        obtain ⟨hin, hroom, hrest⟩ := h
        obtain ⟨hle, h64⟩ := toNat_top p.event hroom
        obtain ⟨habove, hstep⟩ := hin.step h64 hi
        have hrest' := hrest.congr (habove.mono (hin.esp_le.trans hle))
        rcases hstep with ⟨rfl, htarget, hmem⟩ | ⟨hne, hin'⟩
        · simp only [Core.step, hi, Option.some.injEq] at hs
          subst hs
          refine .inr (.inr ⟨p, rfl, htarget, fun hmatched => ?_⟩)
          rw [Core.Inv, htarget, Pending.target, (Event.resumption_eq_iff p.event p.ctx).mpr hmatched]
          exact hrest'
        · have hs' : t = ⟨exec S.toImage next cpu i, p :: ps⟩ := by
            cases i <;> simp_all [Core.step]
          subst hs'
          exact .inl ⟨rfl, hin', hroom, hrest'⟩
  | interrupt e => exact .inr (.inl ⟨e, rfl, Core.interrupt_spec h hs⟩)
  | code reg eip eflags =>
    simp only [Core.step] at hs
    split_ifs at hs with hguard
    cases hs
    obtain ⟨hc, hc', hbelow⟩ := hguard
    refine .inl ⟨rfl, ?_⟩
    cases pending with
    | nil => exact ⟨hc', h.2⟩
    | cons p ps =>
      obtain ⟨hsreg, -, f, code, v, ret, args, hgoal, hloaded, hone, hfits⟩ := h.1.handler_of_running hc
      exact ⟨.handler hc' hsreg hbelow hgoal hloaded hone hfits, h.2⟩
  | write x v =>
    simp only [Core.step] at hs
    split_ifs at hs with hguard
    cases hs
    obtain ⟨hc, hx⟩ := hguard
    refine .inl ⟨rfl, ?_⟩
    cases pending with
    | nil => exact h
    | cons p ps =>
      obtain ⟨hin, hroom, hrest⟩ := h
      rw [Guarded, not_or] at hx
      refine ⟨hin.write hc hx.1 (toNat_top p.event hroom).2 v, hroom, hrest.write (fun q hq => ?_) v⟩
      exact not_lt.mp fun hlt => hx.2 ⟨q, hq, hlt⟩
  | ret =>
    cases pending with
    | nil => simp [Core.step] at hs
    | cons p ps =>
      simp only [Core.step] at hs
      split_ifs at hs with hguard
      cases hs
      exact .inl ⟨rfl, h.1.ret hguard.1 hguard.2, h.2⟩

/-- No alignment check. -/
def CoreAct.Usual : CoreAct → Prop
  | .interrupt e => e.vec ≠ 17
  | _ => True

instance : (a : CoreAct) → Decidable a.Usual
  | .interrupt e => inferInstanceAs (Decidable (e.vec ≠ 17))
  | .step | .code _ _ _ | .write _ _ | .ret => inferInstanceAs (Decidable True)

/-- A step without an alignment check, in the course of interrupts among which there was none since `outer`. -/
theorem Core.usual_step {outer : List Pending} (h : s.Inv S) (hs : s.step S a = some t) (ha : a.Usual)
    (hin : ∃ inner, s.pending = inner ++ outer ∧ ∀ p ∈ inner, p.event.Matched) :
    (t.Inv S ∧ ∃ inner, t.pending = inner ++ outer ∧ ∀ p ∈ inner, p.event.Matched) ∨
      ∃ p, outer = p :: t.pending ∧ t.cpu.toContext = p.target := by
  obtain ⟨inner, hinner, hmatched⟩ := hin
  rcases Core.step_spec h hs with ⟨hpending, hinv⟩ | ⟨e, rfl, hpending, hinv⟩ | ⟨p, hpending, htarget, hinv⟩
  · exact .inl ⟨hinv, inner, hpending.trans hinner, hmatched⟩
  · refine .inl ⟨hinv, ⟨e, s.cpu.toContext⟩ :: inner, by rw [hpending, hinner]; rfl, fun p hp => ?_⟩
    rcases List.mem_cons.mp hp with rfl | hp
    · exact (Event.matched_iff e).mpr ha
    · exact hmatched p hp
  · cases inner with
    | nil => exact .inr ⟨p, hinner.symm.trans hpending, htarget⟩
    | cons q inner =>
      obtain ⟨rfl, hrest⟩ := List.cons.inj (hinner.symm.trans hpending)
      exact .inl ⟨hinv (hmatched q List.mem_cons_self), inner, hrest.symm, fun p hp =>
        hmatched p (List.mem_cons_of_mem q hp)⟩

/-- C code that runs in the kernel, with no interrupt. -/
structure Core.Start (S : Stubs) (s : Core) : Prop where
  running : S.text s.cpu.eip = none
  data : s.cpu.sreg = kernelData
  none : s.pending = []

/-- What holds along a run without an alignment check. -/
theorem Core.usual_run {acts : List CoreAct} (hstart : s.Start S) (hrun : (coreMachine S).run s acts = some t)
    (husual : ∀ a ∈ acts, a.Usual) : t.Inv S ∧ ∀ p ∈ t.pending, p.event.Matched := by
  have hinit : s.Inv S ∧ ∀ p ∈ s.pending, p.event.Matched := by
    rw [Core.Inv, hstart.none]
    exact ⟨⟨hstart.running, hstart.data⟩, nofun⟩
  clear hstart
  induction acts generalizing s with
  | nil =>
    cases hrun
    exact hinit
  | cons a acts ih =>
    obtain ⟨w, hw, hrun⟩ := (coreMachine S).run_cons.mp hrun
    refine ih hrun (fun b hb => husual b (List.mem_cons_of_mem a hb)) ?_
    rcases Core.usual_step hinit.1 hw (husual a List.mem_cons_self) ⟨s.pending, (List.append_nil _).symm, hinit.2⟩ with
      ⟨hinv, inner, hinner, hmatched⟩ | ⟨p, hp, -⟩
    · rw [List.append_nil] at hinner
      exact ⟨hinv, hinner ▸ hmatched⟩
    · cases hp

/-- The `struct registers` on the stack, where a handler is called. -/
theorem Pending.Called.registersAt_eq {p : Pending} {f : Handler} {v : View} {c : Cpu} {top : ℕ} (h : p.Called f v)
    (hmatched : p.event.Matched) (hshows : Shows c v top) :
    ∃ ds : UInt32, ds.toUInt16 = 0x10 ∧ registersAt c.mem (c.word 0) = p.registers c.mem ds := by
  obtain ⟨-, hesp, ds, hds, hwords⟩ := h
  have htop : p.top = p.ctx.reg .esp := if_pos hmatched
  have hcesp : c.reg .esp = p.ctx.reg .esp - 60 := by rw [hshows.reg, hesp, htop]
  have harg : c.word 0 = p.ctx.reg .esp - 56 := by
    rw [hshows.word (by rw [hwords]; exact Nat.succ_pos _), View.word, hwords, htop]
    rfl
  -- the words of the view, and behind them those that were on the stack before
  have hfield : ∀ k < 14, c.mem.load32 (p.ctx.reg .esp - 56 + UInt32.ofNat (4 * k)) = (p.savedWords ds).getD k 0 := by
    intro k hk
    have haddr : p.ctx.reg .esp - 56 + UInt32.ofNat (4 * k) = c.reg .esp + UInt32.ofNat (4 * (k + 1)) := by
      rw [hcesp, Nat.mul_succ, UInt32.ofNat_add, show UInt32.ofNat 4 = 4 from rfl]
      grind
    have hlen : k + 1 < v.words.length := by
      rw [hwords]
      exact Nat.succ_lt_succ hk
    rw [haddr]
    refine (hshows.word hlen).trans ?_
    rw [View.word, hwords, List.getD_cons_succ]
  have hbehind : p.ctx.reg .esp - 56 + UInt32.ofNat (4 * 14) = p.ctx.reg .esp := by
    rw [show UInt32.ofNat (4 * 14) = 56 from rfl]
    grind
  have hbehind' : p.ctx.reg .esp - 56 + UInt32.ofNat (4 * 15) = p.ctx.reg .esp + 4 := by
    rw [show UInt32.ofNat (4 * 15) = 60 from rfl]
    grind
  refine ⟨ds, hds, ?_⟩
  rw [registersAt, Pending.registers, harg]
  simp only [hbehind, hbehind', hfield _ (by decide : 0 < 14), hfield _ (by decide : 1 < 14),
    hfield _ (by decide : 2 < 14), hfield _ (by decide : 3 < 14), hfield _ (by decide : 4 < 14),
    hfield _ (by decide : 5 < 14), hfield _ (by decide : 6 < 14),
    hfield _ (by decide : 7 < 14), hfield _ (by decide : 8 < 14), hfield _ (by decide : 9 < 14),
    hfield _ (by decide : 10 < 14),
    hfield _ (by decide : 11 < 14), hfield _ (by decide : 12 < 14), hfield _ (by decide : 13 < 14)]
  rw [Pending.savedWords, hmatched.frame_eq, hmatched.errCode_eq, htop]
  rfl

/-- **Handlers.** Wherever a stub calls a function, it is the one for the last interrupt, and it is given the `struct
registers` of what was interrupted. -/
theorem handler_registers {acts : List CoreAct} {f : Handler} {next : UInt32} (hstart : s.Start S)
    (hrun : (coreMachine S).run s acts = some t) (husual : ∀ a ∈ acts, a.Usual)
    (hcall : S.text t.cpu.eip = some (.call f, next)) :
    ∃ p ps, t.pending = p :: ps ∧ f = p.event.handler ∧
      ∃ ds : UInt32, ds.toUInt16 = 0x10 ∧ registersAt t.cpu.mem (t.cpu.word 0) = p.registers t.cpu.mem ds := by
  obtain ⟨hinv, hmatched⟩ := Core.usual_run hstart hrun husual
  obtain ⟨cpu, pending⟩ := t
  cases pending with
  | nil =>
    have hrunning : S.text cpu.eip = none := hinv.1
    rw [hcall] at hrunning
    cases hrunning
  | cons p ps =>
    have hp : p.event.Matched := hmatched p List.mem_cons_self
    cases hinv.1 with
    | handler running =>
      rw [hcall] at running
      cases running
    | stub loaded working =>
      next code v =>
      cases code with
      | nil => exact working.goal.elim
      | cons i code =>
        obtain ⟨next', htext, -⟩ := loaded
        obtain ⟨rfl, -⟩ : Instr.call f = i ∧ next = next' := by
          rw [hcall] at htext
          simpa using htext
        obtain ⟨-, -, hcalled, -⟩ := working.goal
        exact ⟨p, ps, rfl, hcalled.1, hcalled.registersAt_eq hp working.shows⟩

/-- While an interrupt is not over: there are more than before it, and no alignment check comes. -/
def Core.Open (n : ℕ) (s : Core) (a : CoreAct) : Prop := n < s.pending.length ∧ a.Usual

instance (n : ℕ) (s : Core) (a : CoreAct) : Decidable (s.Open n a) := inferInstanceAs (Decidable (_ ∧ _))

/-- **Interrupts.** Whatever came in between, an interrupt that is over leaves the context it found: registers,
segments, flags and stack pointer. Not so an alignment check, where `iret` takes the error code for the address to go
on at. -/
theorem interrupt_resumes {w : Core} {before during : List CoreAct} (hstart : s.Start S)
    (hbefore : (coreMachine S).run s before = some t) (husual : ∀ a ∈ before, a.Usual)
    (hinterrupt : (coreMachine S).step t (.interrupt e) = some u) (hduring : (coreMachine S).run u during = some w)
    (hopen : (coreMachine S).Each (Core.Open t.pending.length) u during) (hover : w.pending.length ≤ t.pending.length) :
    w.pending = t.pending ∧ w.cpu.toContext = e.resumption t.cpu.toContext ∧
      (w.cpu.toContext = t.cpu.toContext ↔ e.vec ≠ 17) := by
  obtain ⟨hinv, hmatched⟩ := Core.usual_run hstart hbefore husual
  suffices h : w.pending = t.pending ∧ w.cpu.toContext = e.resumption t.cpu.toContext by
    exact ⟨h.1, h.2, by rw [h.2, Event.resumption_eq_iff, Event.matched_iff]⟩
  have hu : u.Inv S ∧ ∃ inner, u.pending = inner ++ ⟨e, t.cpu.toContext⟩ :: t.pending ∧
      ∀ p ∈ inner, p.event.Matched := by
    obtain ⟨hpending, hinv'⟩ := Core.interrupt_spec hinv hinterrupt
    exact ⟨hinv', [], hpending, nofun⟩
  clear hinterrupt hbefore husual hinv hmatched
  -- what comes in between leaves the interrupt where it is, until it is over
  induction during generalizing u with
  | nil =>
    cases hduring
    obtain ⟨-, inner, hinner, -⟩ := hu
    rw [hinner, List.length_append, List.length_cons] at hover
    omega
  | cons a during ih =>
    obtain ⟨u', hu', hrest⟩ := (coreMachine S).run_cons.mp hduring
    obtain ⟨⟨-, ha⟩, heach⟩ := hopen
    rcases Core.usual_step hu.1 hu' ha hu.2 with hin | ⟨p, hp, htarget⟩
    · exact ih hrest (heach u' hu') hin
    · obtain ⟨rfl, hpending⟩ := List.cons.inj hp
      cases during with
      | nil =>
        cases hrest
        exact ⟨hpending.symm, htarget⟩
      | cons b during =>
        have hlt := (heach u' hu').1.1
        rw [← hpending] at hlt
        exact absurd hlt (lt_irrefl _)

end Steps

/-! ### Stubs in memory -/

/-- Blocks of 32 addresses, an instruction at each: `interrupt_service_request_n` in block `n`, then
`interrupt_request_n`, `idt_setup` and `irq_setup`. -/
def sampleBlock (n : ℕ) : Code :=
  if n < 256 then interruptServiceRequest n
  else if n < 272 then interruptRequest (n - 256)
  else if n = 272 then idtSetup
  else if n = 273 then irqSetup
  else []

/-- The blocks, and the functions behind them. -/
def sampleImage : Image Label Handler where
  text a := (sampleBlock (a.toNat / 32))[a.toNat % 32]?.map fun i => (i, a + 1)
  label
    | .idtSetup => UInt32.ofNat (32 * 272)
    | .irqSetup => UInt32.ofNat (32 * 273)
  entry _ := 0x100000

/-- Code with an instruction at each address. -/
theorem loaded_of_text {I : Image Label Handler} {a : UInt32} {code : Code}
    (h : ∀ k < code.length, I.text (a + UInt32.ofNat k) = code[k]?.map fun i => (i, a + UInt32.ofNat k + 1)) :
    Loaded I a code := by
  induction code generalizing a with
  | nil => trivial
  | cons i code ih =>
    refine ⟨a + 1, ?_, ih fun k hk => ?_⟩
    · have hfirst := h 0 (Nat.succ_pos _)
      rwa [show a + UInt32.ofNat 0 = a from UInt32.add_zero a] at hfirst
    · have hnext := h (k + 1) (Nat.succ_lt_succ hk)
      have haddr : a + UInt32.ofNat (k + 1) = a + 1 + UInt32.ofNat k := by
        rw [Nat.add_comm k 1, UInt32.ofNat_add, ← UInt32.add_assoc]
        rfl
      rwa [haddr, List.getElem?_cons_succ] at hnext

theorem sampleImage_loaded {n : ℕ} {code : Code} (hn : n < 274) (hblock : sampleBlock n = code)
    (hlen : code.length ≤ 32) :
    Loaded sampleImage (UInt32.ofNat (32 * n)) code := by
  refine loaded_of_text fun k hk => ?_
  have haddr : (UInt32.ofNat (32 * n) + UInt32.ofNat k).toNat = 32 * n + k := by
    rw [← UInt32.ofNat_add]
    exact toNat_ofNat_of_lt (by omega)
  have hdiv : (32 * n + k) / 32 = n := by omega
  have hmod : (32 * n + k) % 32 = k := by omega
  simp only [sampleImage, haddr, hdiv, hmod, hblock]

/-- There are such stubs. -/
def sampleStubs : Stubs where
  toImage := sampleImage
  isr n := UInt32.ofNat (32 * n)
  irq n := UInt32.ofNat (32 * (256 + n))
  loaded_isr n hn := by
    refine sampleImage_loaded (by omega) (if_pos (by omega)) ?_
    rw [interruptServiceRequest]
    split <;> exact Nat.le_of_ble_eq_true rfl
  loaded_irq n hn := by
    refine sampleImage_loaded (by omega) ?_ (Nat.le_of_ble_eq_true rfl)
    rw [sampleBlock, if_neg (by omega), if_pos (by omega), Nat.add_sub_cancel_left]
  loaded_label
    | .idtSetup => sampleImage_loaded (by decide) rfl (by decide)
    | .irqSetup => sampleImage_loaded (by decide) rfl (by decide)
  entry_c _ := by simp [sampleImage, sampleBlock]

/-- C code with interrupts enabled. -/
def sampleCore : Core where
  cpu :=
    { reg := fun
        | .esp => 0x200000
        | _ => 7
      sreg := kernelData
      cs := 8
      eip := 0x100000
      eflags := 0x202
      mem := fun _ => 0 }
  pending := []

theorem sampleCore_start : sampleCore.Start sampleStubs where
  running := by simp [sampleStubs, sampleImage, sampleBlock, sampleCore]
  data := rfl
  none := rfl

/-- The stub of the timer up to its call, -/
def sampleEnter : List CoreAct := .interrupt (.irq 0) :: List.replicate 14 .step

theorem handler_registers_timer : ∃ t, (coreMachine sampleStubs).run sampleCore sampleEnter = some t ∧
    ∃ p ps, t.pending = p :: ps ∧ .irqHandler = p.event.handler ∧
      ∃ ds : UInt32, ds.toUInt16 = 0x10 ∧ registersAt t.cpu.mem (t.cpu.word 0) = p.registers t.cpu.mem ds := by
  have hrun : ((coreMachine sampleStubs).run sampleCore sampleEnter).map (·.cpu.eip) = some 8746 := by decide +kernel
  obtain ⟨t, ht, heip⟩ := Option.map_eq_some_iff.mp hrun
  have hcall : sampleStubs.text 8746 = some (.call .irqHandler, 8747) := rfl
  exact ⟨t, ht, handler_registers sampleCore_start ht (by decide) (heip ▸ hcall)⟩

/-- and the rest: the handler changes registers and enables interrupts, and the keyboard comes before it returns. -/
def sampleHandled : List CoreAct :=
  List.replicate 15 .step ++ [.code (fun _ => 0x1FF000) 0x100004 0x202, .interrupt (.irq 1)] ++
    List.replicate 15 .step ++
    [.ret] ++ List.replicate 10 .step ++ [.code (fun _ => 0x1FFFC0) 0x100008 0x202, .ret] ++ List.replicate 10 .step

theorem interrupt_resumes_timer : ∃ u w, (coreMachine sampleStubs).step sampleCore (.interrupt (.irq 0)) = some u ∧
    (coreMachine sampleStubs).run u sampleHandled = some w ∧ w.pending = [] ∧
    w.cpu.toContext = sampleCore.cpu.toContext := by
  have hrun : ((coreMachine sampleStubs).run sampleCore (.interrupt (.irq 0) :: sampleHandled)).map
      (·.pending.length) = some 0 := by
    decide +kernel
  obtain ⟨w, hw, hlen⟩ := Option.map_eq_some_iff.mp hrun
  obtain ⟨u, hu, hw⟩ := (coreMachine sampleStubs).run_cons.mp hw
  have hopen : ∀ u ∈ (coreMachine sampleStubs).step sampleCore (.interrupt (.irq 0)),
      (coreMachine sampleStubs).Each (Core.Open 0) u sampleHandled := by
    decide +kernel
  have hbefore : (coreMachine sampleStubs).run sampleCore [] = some sampleCore := rfl
  obtain ⟨hpending, -, hcontext⟩ := interrupt_resumes sampleCore_start hbefore nofun hu hw (hopen u hu) hlen.le
  exact ⟨u, w, hu, hw, hpending, hcontext.mpr (by decide)⟩

end MoltarOS.X86
