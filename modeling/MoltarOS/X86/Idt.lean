import MoltarOS.X86.Pic

/-!
# Hardware interrupts

`x86/idt.c`: `init_pic` sets the two controllers up, and `irq_handler` sends the end of interrupt and calls
the handler. An interrupt on line 7 may be spurious, which the controller's in-service register tells.

## What is proved

* `initPic_programmed` — after `init_pic`, interrupt `n` has the number `32 + n`.
* `orderly_iff` — for which interrupts, in which states of the controllers, `irq_handler` sends what it should. The
  test for line 7 is the wrong way round: a genuine interrupt gets no end of interrupt, and a spurious one gets one
  (`irq7_stays_in_service`).
-/

namespace MoltarOS.X86

open MoltarOS.Lib.Word

/-! ### The code -/

/-- `PIC_MASTER_COMMAND`. -/
def PIC_MASTER_COMMAND : UInt16 := 0x20

/-- `PIC_MASTER_DATA`. -/
def PIC_MASTER_DATA : UInt16 := 0x21

/-- `PIC_MASTER_START_OFFSET`. -/
def PIC_MASTER_START_OFFSET : UInt8 := 0x20

/-- `PIC_SLAVE_COMMAND`. -/
def PIC_SLAVE_COMMAND : UInt16 := 0xA0

/-- `PIC_SLAVE_DATA`. -/
def PIC_SLAVE_DATA : UInt16 := 0xA1

/-- `PIC_SLAVE_START_OFFSET`. -/
def PIC_SLAVE_START_OFFSET : UInt8 := 0x28

/-- `PIC_EOI`. -/
def PIC_EOI : UInt8 := 0x20

/-- `IRQ7`. -/
def IRQ7 : UInt32 := 39

/-- The controllers, and the bytes sent to ports. -/
structure Ports where
  /-- The controllers. -/
  pics : Pics
  /-- Port and byte, oldest first. -/
  sent : List (UInt16 × UInt8)

/-- `outb(port, value)`. -/
def Ports.outb (s : Ports) (port : UInt16) (value : UInt8) : Ports :=
  ⟨s.pics.outb port value, s.sent ++ [(port, value)]⟩

/-- `init_pic`. -/
def initPic (s : Pics) : Pics :=
  let s := s.outb PIC_MASTER_COMMAND 0x11
  let s := s.outb PIC_SLAVE_COMMAND 0x11
  -- master PIC begins at 32, slave PIC begins at 40
  let s := s.outb PIC_MASTER_DATA PIC_MASTER_START_OFFSET
  let s := s.outb PIC_SLAVE_DATA PIC_SLAVE_START_OFFSET
  let s := s.outb PIC_MASTER_DATA 0x04
  let s := s.outb PIC_SLAVE_DATA 0x02
  let s := s.outb PIC_MASTER_DATA 0x01
  let s := s.outb PIC_SLAVE_DATA 0x01
  let s := s.outb PIC_MASTER_DATA 0x0
  s.outb PIC_SLAVE_DATA 0x0

/-- How `irq_handler` ends. -/
inductive Exit (η : Type) where
  /-- Early: it takes the interrupt for a spurious one. -/
  | ignored
  /-- With the handler. -/
  | handled (h : η)
  /-- With a log message, as there is no handler. -/
  | unexpected

variable {η : Type}

/-- The end of `irq_handler`: the end of interrupt, and the handler that is called. -/
def endAndHandle (handlers : UInt32 → Option η) (intNum : UInt32) (s : Ports) : Ports × Exit η :=
  let s := if intNum ≥ PIC_SLAVE_START_OFFSET.toUInt32 then s.outb PIC_SLAVE_COMMAND PIC_EOI else s
  let s := s.outb PIC_MASTER_COMMAND PIC_EOI
  (s, match handlers intNum with
    | some h => .handled h
    | none => .unexpected)

/-- `irq_handler`, up to the handler that it calls. -/
def irqHandler (handlers : UInt32 → Option η) (intNum : UInt32) (s : Ports) : Ports × Exit η :=
  if intNum = IRQ7 then
    let s := s.outb PIC_MASTER_COMMAND 0x0B
    if s.pics.inb PIC_MASTER_COMMAND &&& 0x80 ≠ 0 then (s, .ignored) else endAndHandle handlers intNum s
  else endAndHandle handlers intNum s

/-- An interrupt: it is acknowledged, and the gate of its number passes the number on to `irq_handler`. -/
def interrupt (handlers : UInt32 → Option η) (s : Pics) (e : Interrupt) : Ports × Exit η :=
  irqHandler handlers (s.deliver e).2.toUInt32 ⟨(s.deliver e).1, []⟩

/-! ### What it should do -/

/-- How many ends of interrupt the master should get. -/
def Interrupt.masterEois : Interrupt → ℕ
  | .genuine _ => 1
  | .spurious => 0

/-- How many the slave should get. -/
def Interrupt.slaveEois : Interrupt → ℕ
  | .genuine n => if n.val < 8 then 0 else 1
  | .spurious => 0

/-- The ends of interrupt sent are those that should be, and the lines in service those before the interrupt. -/
structure Concluded (s : Pics) (e : Interrupt) (t : Ports) : Prop where
  /-- Those to the master. -/
  master : t.sent.count (PIC_MASTER_COMMAND, PIC_EOI) = e.masterEois
  /-- Those to the slave. -/
  slave : t.sent.count (PIC_SLAVE_COMMAND, PIC_EOI) = e.slaveEois
  /-- The lines of the master. -/
  masterIsr : t.pics.master.isr = s.master.isr
  /-- The lines of the slave. -/
  slaveIsr : t.pics.slave.isr = s.slave.isr

/-- It is so for one interrupt after the other. -/
def Orderly (handlers : UInt32 → Option η) : Pics → List Interrupt → Prop
  | _, [] => True
  | s, e :: es => Concluded s e (interrupt handlers s e).1 ∧ Orderly handlers (interrupt handlers s e).1.pics es

/-! ### Setting up -/

/-- What the controllers keep of the set-up. -/
structure Pics.Programmed (s : Pics) : Prop where
  /-- The master's interrupts begin at 32. -/
  master : s.master.vector = PIC_MASTER_START_OFFSET
  /-- Those of the slave at 40. -/
  slave : s.slave.vector = PIC_SLAVE_START_OFFSET
  /-- The slave is on line 2. -/
  cascade : s.slave.cascade = 2

theorem initPic_programmed (s : Pics) : (initPic s).Programmed := ⟨rfl, rfl, rfl⟩

/-- The state after `init_pic`, with the given lines in service. -/
def serving (s : Pics) (master slave : UInt8) : Pics :=
  ⟨{ (initPic s).master with isr := master }, { (initPic s).slave with isr := slave }⟩

theorem serving_programmed (s : Pics) (master slave : UInt8) : (serving s master slave).Programmed := ⟨rfl, rfl, rfl⟩

/-- Interrupt `n` has the number `32 + n`. -/
theorem Pics.Programmed.number_genuine {s : Pics} (h : s.Programmed) (n : Fin 16) :
    (s.deliver (.genuine n)).2.toUInt32 = UInt32.ofNat (32 + n.val) := by
  have hmaster : ∀ n : Fin 16, n.val < 8 → (PIC_MASTER_START_OFFSET + UInt8.ofNat n.val).toUInt32 =
      UInt32.ofNat (32 + n.val) := by
    decide
  have hslave : ∀ n : Fin 16, ¬ n.val < 8 →
      (PIC_SLAVE_START_OFFSET + UInt8.ofNat (n.val - 8)).toUInt32 = UInt32.ofNat (32 + n.val) := by
    decide
  rw [Pics.deliver]
  split_ifs with hn
  · rw [h.master, hmaster n hn]
  · rw [h.slave, hslave n hn]

theorem toNat_number (n : Fin 16) : (UInt32.ofNat (32 + n.val)).toNat = 32 + n.val := toNat_ofNat_of_lt (by omega)

/-- Only line 7 has its number. -/
theorem number_ne_IRQ7 {n : Fin 16} (h7 : n.val ≠ 7) : UInt32.ofNat (32 + n.val) ≠ IRQ7 := by
  intro he
  have hnumber := toNat_number n
  have hirq7 : IRQ7.toNat = 39 := rfl
  rw [he] at hnumber
  omega

theorem Pics.Programmed.number_spurious {s : Pics} (h : s.Programmed) : (s.deliver .spurious).2.toUInt32 = IRQ7 := by
  rw [Pics.deliver, h.master]
  rfl

/-! ### One interrupt -/

section Handler

variable {handlers : UInt32 → Option η} {s : Ports} {intNum : UInt32}

/-- What an end of interrupt to the master leaves. -/
theorem outb_master_eoi (s : Ports) :
    s.outb PIC_MASTER_COMMAND PIC_EOI =
      ⟨⟨{ s.pics.master with isr := endOfInterrupt s.pics.master.isr }, s.pics.slave⟩,
      s.sent ++ [(PIC_MASTER_COMMAND, PIC_EOI)]⟩ :=
  rfl

/-- What one to the slave leaves. -/
theorem outb_slave_eoi (s : Ports) :
    s.outb PIC_SLAVE_COMMAND PIC_EOI =
      ⟨⟨s.pics.master, { s.pics.slave with isr := endOfInterrupt s.pics.slave.isr }⟩,
        s.sent ++ [(PIC_SLAVE_COMMAND, PIC_EOI)]⟩ :=
  rfl

theorem endAndHandle_master (h : intNum.toNat < 40) :
    (endAndHandle handlers intNum s).1 = s.outb PIC_MASTER_COMMAND PIC_EOI := by
  have hoffset : PIC_SLAVE_START_OFFSET.toUInt32.toNat = 40 := rfl
  have hno : ¬ intNum ≥ PIC_SLAVE_START_OFFSET.toUInt32 := by
    rw [ge_iff_le, UInt32.le_iff_toNat_le]
    omega
  rw [endAndHandle, if_neg hno]

theorem endAndHandle_slave (h : 40 ≤ intNum.toNat) :
    (endAndHandle handlers intNum s).1 = (s.outb PIC_SLAVE_COMMAND PIC_EOI).outb PIC_MASTER_COMMAND PIC_EOI := by
  have hoffset : PIC_SLAVE_START_OFFSET.toUInt32.toNat = 40 := rfl
  have hyes : intNum ≥ PIC_SLAVE_START_OFFSET.toUInt32 := by
    rw [ge_iff_le, UInt32.le_iff_toNat_le]
    omega
  rw [endAndHandle, if_pos hyes]

/-- On line 7, nothing follows if the line is in service, and an end of interrupt if it is not. -/
theorem irqHandler_irq7 (s : Pics) :
    (irqHandler handlers IRQ7 ⟨s, []⟩).1 =
      if InService s.master.isr 7 then ⟨⟨{ s.master with readIsr := true }, s.slave⟩, [(PIC_MASTER_COMMAND, 0x0B)]⟩
      else ⟨⟨{ s.master with readIsr := true, isr := endOfInterrupt s.master.isr }, s.slave⟩,
        [(PIC_MASTER_COMMAND, 0x0B), (PIC_MASTER_COMMAND, PIC_EOI)]⟩ := by
  have hread : ((⟨s, []⟩ : Ports).outb PIC_MASTER_COMMAND 0x0B).pics.inb PIC_MASTER_COMMAND = s.master.isr := rfl
  rw [irqHandler, if_pos rfl]
  simp only [hread, and_0x80_ne_zero_iff]
  split_ifs with h
  · rfl
  · rw [endAndHandle_master (by decide)]
    rfl

end Handler

/-- The states in which `irq_handler` does with an interrupt what it should: the interrupt is not on line 7, and no
line of its priority or of a higher is in service; or it is spurious, and line 7 is in service. -/
def Restorable (master slave : UInt8) : Interrupt → Prop
  | .genuine n => n.val ≠ 7 ∧ if n.val < 8 then Idle master n.val else Idle master 2 ∧ Idle slave (n.val - 8)
  | .spurious => InService master 7

instance (master slave : UInt8) : (e : Interrupt) → Decidable (Restorable master slave e)
  | .genuine _ => inferInstanceAs (Decidable (_ ∧ _))
  | .spurious => inferInstanceAs (Decidable (InService master 7))

section Interrupts

variable {s : Pics} (h : s.Programmed) (handlers : UInt32 → Option η)

include h

/-- An interrupt on line 7 that is genuine gets no end of interrupt. -/
theorem interrupt_genuine_7 {n : Fin 16} (hn : n.val = 7) :
    (interrupt handlers s (.genuine n)).1 =
      ⟨⟨{ s.master.serve 7 with readIsr := true }, s.slave⟩, [(PIC_MASTER_COMMAND, 0x0B)]⟩ := by
  obtain rfl : n = 7 := Fin.ext hn
  have hnumber : (s.deliver (.genuine 7)).2.toUInt32 = IRQ7 := h.number_genuine 7
  have h7 : InService (s.deliver (.genuine 7)).1.master.isr 7 := inService_acknowledge s.master.isr (by decide)
  rw [interrupt, hnumber, irqHandler_irq7, if_pos h7]
  rfl

/-- One on another line of the master gets one. -/
theorem interrupt_master {n : Fin 16} (hn : n.val < 8) (h7 : n.val ≠ 7) :
    (interrupt handlers s (.genuine n)).1 =
      ⟨⟨{ s.master.serve n.val with isr := endOfInterrupt (acknowledge s.master.isr n.val) }, s.slave⟩,
        [(PIC_MASTER_COMMAND, PIC_EOI)]⟩ := by
  have hnumber := toNat_number n
  rw [interrupt, h.number_genuine n, irqHandler, if_neg (number_ne_IRQ7 h7), endAndHandle_master (by omega),
    outb_master_eoi]
  simp only [Pics.deliver, if_pos hn, Pic.serve, List.nil_append]

/-- One on a line of the slave gets one from each. -/
theorem interrupt_slave {n : Fin 16} (hn : ¬ n.val < 8) :
    (interrupt handlers s (.genuine n)).1 =
      ⟨⟨{ s.master.serve 2 with isr := endOfInterrupt (acknowledge s.master.isr 2) },
        { s.slave.serve (n.val - 8) with isr := endOfInterrupt (acknowledge s.slave.isr (n.val - 8)) }⟩,
        [(PIC_SLAVE_COMMAND, PIC_EOI), (PIC_MASTER_COMMAND, PIC_EOI)]⟩ := by
  have hlt := n.isLt
  have hnumber := toNat_number n
  have hline : s.slave.cascade.toNat = 2 := by rw [h.cascade]; rfl
  rw [interrupt, h.number_genuine n, irqHandler, if_neg (number_ne_IRQ7 (by omega)), endAndHandle_slave (by omega),
    outb_slave_eoi, outb_master_eoi]
  simp only [Pics.deliver, if_neg hn, hline, Pic.serve, List.nil_append, List.cons_append]

/-- **One interrupt**, in any state of the controllers. -/
theorem concluded_iff (e : Interrupt) :
    Concluded s e (interrupt handlers s e).1 ↔ Restorable s.master.isr s.slave.isr e := by
  cases e with
  | genuine n =>
    have hlt := n.isLt
    by_cases h7 : n.val = 7
    · refine ⟨fun hc => ?_, fun hr => absurd h7 hr.1⟩
      have hcount := hc.master
      rw [interrupt_genuine_7 h handlers h7] at hcount
      cases hcount
    rw [Restorable, and_iff_right h7]
    by_cases hn : n.val < 8
    · have heois : (Interrupt.genuine n).slaveEois = 0 := if_pos hn
      rw [interrupt_master h handlers hn h7, if_pos hn, ← endOfInterrupt_acknowledge_iff _ hn]
      exact ⟨fun hc => hc.masterIsr, fun he => ⟨rfl, heois.symm, he, rfl⟩⟩
    · have heois : (Interrupt.genuine n).slaveEois = 1 := if_neg hn
      rw [interrupt_slave h handlers hn, if_neg hn, ← endOfInterrupt_acknowledge_iff _ (by decide),
        ← endOfInterrupt_acknowledge_iff _ (by omega)]
      exact ⟨fun hc => ⟨hc.masterIsr, hc.slaveIsr⟩, fun he => ⟨rfl, heois.symm, he.1, he.2⟩⟩
  | spurious =>
    rw [interrupt, h.number_spurious, Pics.deliver, irqHandler_irq7]
    split_ifs with h7
    · exact ⟨fun _ => h7, fun _ => ⟨rfl, rfl, rfl, rfl⟩⟩
    · refine ⟨fun hc => ?_, fun h7' => absurd h7' h7⟩
      have hcount := hc.master
      cases hcount

/-- The set-up stays. -/
theorem interrupt_programmed (e : Interrupt) : (interrupt handlers s e).1.pics.Programmed := by
  cases e with
  | genuine n =>
    by_cases h7 : n.val = 7
    · rw [interrupt_genuine_7 h handlers h7]
      exact ⟨h.master, h.slave, h.cascade⟩
    by_cases hn : n.val < 8
    · rw [interrupt_master h handlers hn h7]
      exact ⟨h.master, h.slave, h.cascade⟩
    · rw [interrupt_slave h handlers hn]
      exact ⟨h.master, h.slave, h.cascade⟩
  | spurious =>
    rw [interrupt, h.number_spurious, Pics.deliver, irqHandler_irq7]
    split_ifs <;> exact ⟨h.master, h.slave, h.cascade⟩

end Interrupts

/-! ### Sequences of interrupts -/

/-- Where one interrupt leaves the lines in service as they were, the next finds them so. -/
theorem orderly_of_programmed (handlers : UInt32 → Option η) {s : Pics} (h : s.Programmed) (es : List Interrupt) :
    Orderly handlers s es ↔ ∀ e ∈ es, Restorable s.master.isr s.slave.isr e := by
  induction es generalizing s with
  | nil => simp [Orderly]
  | cons e es ih =>
    rw [Orderly, concluded_iff h, ih (interrupt_programmed h handlers e), List.forall_mem_cons]
    refine and_congr_right fun hr => ?_
    have hc := (concluded_iff h handlers e).mpr hr
    rw [hc.masterIsr, hc.slaveIsr]

/-- **Ends of interrupt.** After `init_pic`, whatever lines are in service and whatever the handlers, `irq_handler`
sends what it should in a sequence of interrupts exactly if each of them is one for which the state is `Restorable`. -/
theorem orderly_iff (handlers : UInt32 → Option η) (s : Pics) (master slave : UInt8) (es : List Interrupt) :
    Orderly handlers (serving s master slave) es ↔ ∀ e ∈ es, Restorable master slave e :=
  orderly_of_programmed handlers (serving_programmed s master slave) es

/-- A controller before it is set up. -/
def Pic.blank : Pic := ⟨0, 0, 0, 0, 0, 0, .mask, false⟩

/-- A genuine interrupt on line 7, with nothing in service before: it gets no end of interrupt, and stays in service. -/
theorem irq7_stays_in_service :
    ¬ Orderly (fun _ => (none : Option Unit)) (serving ⟨Pic.blank, Pic.blank⟩ 0 0) [.genuine 7] ∧
      (interrupt (fun _ => (none : Option Unit)) (serving ⟨Pic.blank, Pic.blank⟩ 0 0) (.genuine 7)).1.pics.master.isr =
        0x80 := by
  have hsent : (interrupt (fun _ => (none : Option Unit)) (serving ⟨Pic.blank, Pic.blank⟩ 0 0) (.genuine 7)).1.sent =
      [(PIC_MASTER_COMMAND, 0x0B)] := by
    decide
  refine ⟨fun ho => ?_, by decide⟩
  have hcount := ho.1.master
  rw [hsent] at hcount
  cases hcount

end MoltarOS.X86
