import Mathlib.Data.FinEnum
import MoltarOS.Lib.Word

/-!
# The interrupt controllers

Two 8259A controllers, the second on a line of the first, behind the ports `0x20`, `0x21`, `0xA0` and `0xA1`. Of
their commands, those that the kernel uses are modelled: the initialisation words `ICW1` to `ICW4`, the mask, the
non-specific end of interrupt, and the choice of the register that a read of the command port returns.

## What is proved

* `endOfInterrupt_acknowledge_iff` — an end of interrupt undoes an acknowledgement exactly if no line of the same or
  a higher priority was in service.
-/

namespace MoltarOS.X86

/-! ### One controller -/

/-- What the next byte on the data port is. -/
inductive Expect where
  /-- `ICW2`. -/
  | vector
  /-- `ICW3`. -/
  | cascade
  /-- `ICW4`. -/
  | mode
  /-- `OCW1`, the mask. -/
  | mask
  deriving DecidableEq

/-- An 8259A. -/
structure Pic where
  /-- The lines in service, bit by bit. -/
  isr : UInt8
  /-- The lines with a request. -/
  irr : UInt8
  /-- The masked lines. -/
  imr : UInt8
  /-- The interrupt number of line 0: `ICW2`. -/
  vector : UInt8
  /-- The lines with a slave, or the line of the slave: `ICW3`. -/
  cascade : UInt8
  /-- `ICW4`. -/
  mode : UInt8
  /-- What comes next on the data port. -/
  expect : Expect
  /-- Whether a read of the command port returns the lines in service, or those with a request. -/
  readIsr : Bool

/-- A line in service: lines with lower numbers have the higher priority. -/
def InService (isr : UInt8) (n : ℕ) : Prop := isr.toNat.testBit n = true

instance (isr : UInt8) (n : ℕ) : Decidable (InService isr n) := inferInstanceAs (Decidable (_ = _))

/-- No line of the priority of line `n`, or of a higher, is in service. -/
def Idle (isr : UInt8) (n : ℕ) : Prop := ∀ k ≤ n, ¬ InService isr k

instance (isr : UInt8) (n : ℕ) : Decidable (Idle isr n) := inferInstanceAs (Decidable (∀ k ≤ _, _))

/-- The bit of a line. -/
def lineBit (n : ℕ) : UInt8 := 1 <<< UInt8.ofNat n

/-- Line `n` goes into service. -/
def acknowledge (isr : UInt8) (n : ℕ) : UInt8 := isr ||| lineBit n

/-- The non-specific end of interrupt: the lowest bit that is set is cleared. -/
def endOfInterrupt (isr : UInt8) : UInt8 := isr &&& (isr - 1)

/-- The lowest bit is that of the line acknowledged if no lower one is set, and goes back to what it was if it was
not set. -/
theorem endOfInterrupt_acknowledge_iff (isr : UInt8) {n : ℕ} (hn : n < 8) :
    endOfInterrupt (acknowledge isr n) = isr ↔ Idle isr n := by
  have hall : ∀ isr : UInt8, ∀ n < 8, endOfInterrupt (acknowledge isr n) = isr ↔ Idle isr n := by decide +kernel
  exact hall isr n hn

/-- How a program tests for line 7. -/
theorem and_0x80_ne_zero_iff (isr : UInt8) : isr &&& 0x80 ≠ 0 ↔ InService isr 7 := by
  revert isr
  decide +kernel

/-- A line acknowledged is in service. -/
theorem inService_acknowledge (isr : UInt8) {n : ℕ} (hn : n < 8) : InService (acknowledge isr n) n := by
  have hall : ∀ isr : UInt8, ∀ n < 8, InService (acknowledge isr n) n := by decide +kernel
  exact hall isr n hn

namespace Pic

/-- A byte for the command port. -/
def command (p : Pic) (v : UInt8) : Pic :=
  if v &&& 0x10 ≠ 0 then
    -- `ICW1`, with the other three to follow
    { p with imr := 0, readIsr := false, expect := .vector }
  else if v &&& 0x08 ≠ 0 then
    -- `OCW3`
    if v &&& 0x03 = 0x03 then { p with readIsr := true }
      else if v &&& 0x03 = 0x02 then { p with readIsr := false } else p
  else if v = 0x20 then { p with isr := endOfInterrupt p.isr } else p

/-- A byte for the data port. -/
def write (p : Pic) (v : UInt8) : Pic :=
  match p.expect with
  | .vector => { p with vector := v &&& 0xF8, expect := .cascade }
  | .cascade => { p with cascade := v, expect := .mode }
  | .mode => { p with mode := v, expect := .mask }
  | .mask => { p with imr := v }

/-- What a read of the command port returns. -/
def status (p : Pic) : UInt8 := if p.readIsr then p.isr else p.irr

/-- The processor acknowledges line `n`. -/
def serve (p : Pic) (n : ℕ) : Pic := { p with isr := acknowledge p.isr n, irr := p.irr &&& ~~~ lineBit n }

end Pic

/-! ### The two controllers -/

/-- The master and the slave. -/
structure Pics where
  /-- The first. -/
  master : Pic
  /-- The second. -/
  slave : Pic

/-- A hardware interrupt. -/
inductive Interrupt where
  /-- One of the sixteen lines. -/
  | genuine (n : Fin 16)
  /-- Line 7 of the master when the request is gone by the time it is acknowledged. -/
  | spurious

namespace Pics

/-- `outb` to a port of a controller; the other ports are of no interest here. -/
def outb (s : Pics) (port : UInt16) (v : UInt8) : Pics :=
  if port = 0x20 then { s with master := s.master.command v }
  else if port = 0x21 then { s with master := s.master.write v }
  else if port = 0xA0 then { s with slave := s.slave.command v }
  else if port = 0xA1 then { s with slave := s.slave.write v }
  else s

/-- `inb` from a port of a controller. -/
def inb (s : Pics) (port : UInt16) : UInt8 :=
  if port = 0x20 then s.master.status
  else if port = 0x21 then s.master.imr
  else if port = 0xA0 then s.slave.status
  else if port = 0xA1 then s.slave.imr
  else 0xFF

/-- The processor acknowledges the interrupt, and gets its number. -/
def deliver (s : Pics) : Interrupt → Pics × UInt8
  | .genuine n =>
    if n.val < 8 then ({ s with master := s.master.serve n.val }, s.master.vector + UInt8.ofNat n.val)
    else (⟨s.master.serve s.slave.cascade.toNat, s.slave.serve (n.val - 8)⟩, s.slave.vector + UInt8.ofNat (n.val - 8))
  | .spurious => (s, s.master.vector + 7)

end Pics

end MoltarOS.X86
