import MoltarOS.Lib.Words

/-!
# Straight-line assembly

The instructions of the 32-bit x86 that interrupt handlers are made of, on a processor with its stack in memory, and a
calculus for code that keeps to its own part of the stack.

A `View` has the words of that part as a list. `wp E Q code v` says that `code` from there has room, comes to the
calls and jumps as `E` wants them, and that its `iret` goes on in a context that satisfies `Q`. A function that is
called may change all registers but `esp`, and its arguments.

## What is proved

* `wp_exec` — an instruction that does not jump takes the processor from one view to the next, and writes below `esp`
  alone.
* `wp_call`, `wp_iret` — calls, and the end.
-/

namespace MoltarOS.Lib.Asm

open Word

/-! ### The processor -/

/-- The general registers. -/
inductive Reg where
  | eax | ecx | edx | ebx | esp | ebp | esi | edi
  deriving DecidableEq

/-- The registers of the data segments. -/
inductive Sreg where
  | ds | es | fs | gs | ss
  deriving DecidableEq

/-- What a computation needs to go on. -/
@[ext] structure Context where
  /-- The general registers. -/
  reg : Reg → UInt32
  /-- The data segments. -/
  sreg : Sreg → UInt16
  /-- The code segment. -/
  cs : UInt16
  /-- The address of the next instruction. -/
  eip : UInt32
  /-- The flags. -/
  eflags : UInt32

/-- The processor with its memory. -/
structure Cpu extends Context where
  /-- The memory. -/
  mem : Mem

/-- Instructions, with labels and functions by name. -/
inductive Instr (Λ φ : Type) where
  | cli | sti
  | pushImm (w : UInt32)
  | push (r : Reg)
  | pop (r : Reg)
  | pusha | popa
  /-- `mov r16, sreg`. -/
  | fromSreg (r : Reg) (s : Sreg)
  /-- `mov sreg, r16`. -/
  | toSreg (s : Sreg) (r : Reg)
  /-- `mov r16, imm16`. -/
  | movImm16 (r : Reg) (v : UInt16)
  | addEsp (k : UInt32)
  | jmp (l : Λ)
  | call (f : φ)
  | iret

/-- The interrupt flag. -/
def IF : UInt32 := 0x200

/-- Flags after an addition: carry, parity, auxiliary carry, zero, sign and overflow. -/
def addFlags (flags a b : UInt32) : UInt32 :=
  let sum := a + b
  let ones := (List.range 8).countP fun k => sum.toNat.testBit k
  flags &&& ~~~0x8D5 ||| (if sum < a then 1 else 0) ||| (if ones % 2 = 0 then 4 else 0) |||
    (if (a &&& 0xF) + (b &&& 0xF) > 0xF then 0x10 else 0) ||| (if sum = 0 then 0x40 else 0) |||
    (if sum ≥ 0x80000000 then 0x80 else 0) ||| (if (a ^^^ sum) &&& (b ^^^ sum) ≥ 0x80000000 then 0x800 else 0)

/-- Replace the lower half of a word. -/
def setLow (w : UInt32) (v : UInt16) : UInt32 := UInt32.ofNat (w.toNat / 2 ^ 16 * 2 ^ 16 + v.toNat)

@[simp] theorem toUInt16_setLow (w : UInt32) (v : UInt16) : (setLow w v).toUInt16 = v := by
  have hw := w.toNat_lt
  have hv := v.toNat_lt
  rw [← UInt16.toNat_inj, UInt32.toNat_toUInt16, setLow, UInt32.toNat_ofNat']
  omega

namespace Cpu

variable (c : Cpu)

/-- Give a register another value. -/
def setReg (r : Reg) (w : UInt32) : Cpu := { c with reg := Function.update c.reg r w }

/-- Go on somewhere else. -/
def goto (a : UInt32) : Cpu := { c with eip := a }

/-- Push a word. -/
def pushWord (w : UInt32) : Cpu :=
  { c with
    reg := Function.update c.reg .esp (c.reg .esp - 4)
    mem := c.mem.store32 (c.reg .esp - 4) w }

/-- Push words, the first one first. -/
def pushWords (ws : List UInt32) : Cpu := ws.foldl pushWord c

theorem pushWords_cons (w : UInt32) (ws : List UInt32) : c.pushWords (w :: ws) = (c.pushWord w).pushWords ws := rfl

@[simp] theorem pushWords_sreg (ws : List UInt32) : (c.pushWords ws).sreg = c.sreg := by
  induction ws generalizing c with
  | nil => rfl
  | cons w ws ih => exact ih (c.pushWord w)

/-- The word so many words up the stack. -/
def word (k : ℕ) : UInt32 := c.mem.load32 (c.reg .esp + UInt32.ofNat (4 * k))

/-- The stack pointer so many bytes up. -/
def addEsp (k : UInt32) : Cpu := c.setReg .esp (c.reg .esp + k)

/-- `popa`, which leaves the word of `esp` out. -/
def popAll : Cpu :=
  { c with
    reg := fun
      | .edi => c.word 0
      | .esi => c.word 1
      | .ebp => c.word 2
      | .ebx => c.word 4
      | .edx => c.word 5
      | .ecx => c.word 6
      | .eax => c.word 7
      | .esp => c.reg .esp + 32 }

end Cpu

/-- Code in memory: the instructions with the addresses behind them, the labels and the functions. -/
structure Image (Λ φ : Type) where
  /-- The instruction at an address, and the address behind it. -/
  text : UInt32 → Option (Instr Λ φ × UInt32)
  /-- The address of a label. -/
  label : Λ → UInt32
  /-- The address of a function. -/
  entry : φ → UInt32

variable {Λ φ : Type}

/-- The registers that `pusha` pushes, the first one first. -/
def pushaOrder : List Reg := [.eax, .ecx, .edx, .ebx, .esp, .ebp, .esi, .edi]

/-- Execute an instruction, with `next` behind it. -/
def exec (I : Image Λ φ) (next : UInt32) (c : Cpu) : Instr Λ φ → Cpu
  | .cli => { c.goto next with eflags := c.eflags &&& ~~~IF }
  | .sti => { c.goto next with eflags := c.eflags ||| IF }
  | .pushImm w => (c.pushWord w).goto next
  | .push r => (c.pushWord (c.reg r)).goto next
  | .pop r => ((c.addEsp 4).setReg r (c.word 0)).goto next
  | .pusha => (c.pushWords (pushaOrder.map c.reg)).goto next
  | .popa => c.popAll.goto next
  | .fromSreg r s => (c.setReg r (setLow (c.reg r) (c.sreg s))).goto next
  | .toSreg s r => { c.goto next with sreg := Function.update c.sreg s (c.reg r).toUInt16 }
  | .movImm16 r v => (c.setReg r (setLow (c.reg r) v)).goto next
  | .addEsp k => { (c.addEsp k).goto next with eflags := addFlags c.eflags (c.reg .esp) k }
  | .jmp l => c.goto (I.label l)
  | .call f => (c.pushWord next).goto (I.entry f)
  | .iret => { (c.addEsp 12).goto (c.word 0) with cs := (c.word 1).toUInt16, eflags := c.word 2 }

/-- Code at an address. -/
def Loaded (I : Image Λ φ) : UInt32 → List (Instr Λ φ) → Prop
  | _, [] => True
  | a, i :: code => ∃ next, I.text a = some (i, next) ∧ Loaded I next code

/-! ### The calculus -/

/-- What code has to do with: the registers, and its words on the stack. -/
structure View where
  /-- The general registers. -/
  reg : Reg → UInt32
  /-- The words from `esp` up. -/
  words : List UInt32

/-- What holds around a piece of code. -/
structure Env (Λ φ : Type) where
  /-- How many words there is room for. -/
  depth : ℕ
  /-- The data segments, which stay what they are. -/
  sreg : Sreg → UInt16
  /-- When a label may be jumped to. -/
  jmp : Λ → View → Prop
  /-- When a function may be called. -/
  call : φ → View → Prop
  /-- How many words of arguments the function has. -/
  args : φ → ℕ

namespace View

variable (v : View)

/-- Give a register another value. -/
def setReg (r : Reg) (w : UInt32) : View := { v with reg := Function.update v.reg r w }

/-- Push a word. -/
def pushWord (w : UInt32) : View := ⟨Function.update v.reg .esp (v.reg .esp - 4), w :: v.words⟩

/-- Push words, the first one first. -/
def pushWords (ws : List UInt32) : View := ws.foldl pushWord v

/-- The word so many words up. -/
def word (k : ℕ) : UInt32 := v.words.getD k 0

/-- Without the first words. -/
def drop (n : ℕ) : View := ⟨Function.update v.reg .esp (v.reg .esp + UInt32.ofNat (4 * n)), v.words.drop n⟩

/-- `popa`. -/
def popAll : View where
  reg
    | .edi => v.word 0
    | .esi => v.word 1
    | .ebp => v.word 2
    | .ebx => v.word 4
    | .edx => v.word 5
    | .ecx => v.word 6
    | .eax => v.word 7
    | .esp => v.reg .esp + 32
  words := v.words.drop 8

variable (r : Reg) (w : UInt32) (n : ℕ)

@[simp] theorem setReg_reg : (v.setReg r w).reg = Function.update v.reg r w := rfl

@[simp] theorem setReg_words : (v.setReg r w).words = v.words := rfl

@[simp] theorem pushWord_reg : (v.pushWord w).reg = Function.update v.reg .esp (v.reg .esp - 4) := rfl

@[simp] theorem pushWord_words : (v.pushWord w).words = w :: v.words := rfl

@[simp] theorem drop_reg : (v.drop n).reg = Function.update v.reg .esp (v.reg .esp + UInt32.ofNat (4 * n)) := rfl

@[simp] theorem drop_words : (v.drop n).words = v.words.drop n := rfl

/-- What pushing does. -/
theorem pushWords_eq (ws : List UInt32) : v.pushWords ws =
    ⟨Function.update v.reg .esp (v.reg .esp - UInt32.ofNat (4 * ws.length)), ws.reverse ++ v.words⟩ := by
  induction ws generalizing v with
  | nil =>
    have hzero : v.reg .esp - UInt32.ofNat (4 * ([] : List UInt32).length) = v.reg .esp := UInt32.sub_zero _
    rw [hzero, Function.update_eq_self]
    rfl
  | cons w ws ih =>
    have hesp : v.reg .esp - 4 - UInt32.ofNat (4 * ws.length) = v.reg .esp - UInt32.ofNat (4 * (w :: ws).length) := by
      rw [List.length_cons, Nat.mul_succ, UInt32.ofNat_add, show UInt32.ofNat 4 = 4 from rfl]
      grind
    rw [show v.pushWords (w :: ws) = (v.pushWord w).pushWords ws from rfl, ih]
    simp only [pushWord_reg, pushWord_words, Function.update_self, Function.update_idem, hesp, List.reverse_cons,
      List.append_assoc, List.cons_append, List.nil_append]

/-- The words that `pusha` pushes. -/
theorem pushWords_pusha (reg : Reg → UInt32) (ws : List UInt32) :
    View.pushWords ⟨reg, ws⟩ (pushaOrder.map reg) =
      ⟨Function.update reg .esp (reg .esp - 32),
        reg .edi :: reg .esi :: reg .ebp :: reg .esp :: reg .ebx :: reg .edx :: reg .ecx :: reg .eax :: ws⟩ :=
  pushWords_eq ⟨reg, ws⟩ _

/-- What `iret` goes on with. -/
def returned (sreg : Sreg → UInt16) : Context where
  reg := (v.drop 3).reg
  sreg := sreg
  cs := (v.word 1).toUInt16
  eip := v.word 0
  eflags := v.word 2

end View

/-- Instructions that are followed by the next one. -/
def Instr.Straight : Instr Λ φ → Prop
  | .jmp _ | .call _ | .iret => False
  | _ => True

/-- Code does its work from a view on: it comes to jumps and calls as it should, and its `iret` to a context with
`Q`. -/
def wp (E : Env Λ φ) (Q : Context → Prop) : List (Instr Λ φ) → View → Prop
  | [], _ => False
  | .cli :: code, v | .sti :: code, v => wp E Q code v
  | .pushImm w :: code, v => v.words.length + 1 ≤ E.depth ∧ wp E Q code (v.pushWord w)
  | .push r :: code, v => v.words.length + 1 ≤ E.depth ∧ wp E Q code (v.pushWord (v.reg r))
  | .pop r :: code, v => r ≠ .esp ∧ 1 ≤ v.words.length ∧ wp E Q code ((v.drop 1).setReg r (v.word 0))
  | .pusha :: code, v => v.words.length + 8 ≤ E.depth ∧ wp E Q code (v.pushWords (pushaOrder.map v.reg))
  | .popa :: code, v => 8 ≤ v.words.length ∧ wp E Q code v.popAll
  | .fromSreg r s :: code, v => r ≠ .esp ∧ wp E Q code (v.setReg r (setLow (v.reg r) (E.sreg s)))
  | .toSreg s r :: code, v => (v.reg r).toUInt16 = E.sreg s ∧ wp E Q code v
  | .movImm16 r k :: code, v => r ≠ .esp ∧ wp E Q code (v.setReg r (setLow (v.reg r) k))
  | .addEsp k :: code, v => k.toNat % 4 = 0 ∧ k.toNat / 4 ≤ v.words.length ∧ wp E Q code (v.drop (k.toNat / 4))
  | .jmp l :: _, v => E.jmp l v
  | .call f :: code, v => v.words.length + 1 ≤ E.depth ∧ E.args f ≤ v.words.length ∧ E.call f v ∧
      ∀ reg args, reg .esp = v.reg .esp → args.length = E.args f →
        wp E Q code ⟨reg, args ++ v.words.drop (E.args f)⟩
  | .iret :: _, v => v.words.length = 3 ∧ Q (v.returned E.sreg)

/-- A jump or a call that is allowed in one environment is in another. -/
theorem wp.mono {E E' : Env Λ φ} {Q : Context → Prop} {code : List (Instr Λ φ)} {v : View} (h : wp E Q code v)
    (hdepth : E.depth ≤ E'.depth) (hsreg : E.sreg = E'.sreg) (hargs : E.args = E'.args)
    (hjmp : ∀ l v, E.jmp l v → E'.jmp l v) (hcall : ∀ f v, E.call f v → E'.call f v) : wp E' Q code v := by
  induction code generalizing v with
  | nil => exact h
  | cons i code ih =>
    cases i with
    | cli | sti => exact ih h
    | pushImm | push | pusha => exact ⟨h.1.trans hdepth, ih h.2⟩
    | pop => exact ⟨h.1, h.2.1, ih h.2.2⟩
    | popa => exact ⟨h.1, ih h.2⟩
    | fromSreg => exact ⟨h.1, ih (hsreg ▸ h.2)⟩
    | toSreg => exact ⟨hsreg ▸ h.1, ih h.2⟩
    | movImm16 => exact ⟨h.1, ih h.2⟩
    | addEsp => exact ⟨h.1, h.2.1, ih h.2.2⟩
    | jmp l => exact hjmp l v h
    | call f =>
      obtain ⟨hlen, hle, hf, hback⟩ := h
      rw [hargs] at hle hback
      exact ⟨hlen.trans hdepth, hle, hcall f v hf, fun reg args hreg hlen => ih (hback reg args hreg hlen)⟩
    | iret => exact ⟨h.1, hsreg ▸ h.2⟩

/-- The processor shows a view, with its part of the stack below `top`. -/
structure Shows (c : Cpu) (v : View) (top : ℕ) : Prop where
  reg : c.reg = v.reg
  fits : Fits c.mem (c.reg .esp) v.words top

namespace Shows

variable {c : Cpu} {v : View} {top : ℕ}

/-- Nothing is on the stack yet. -/
theorem empty (c : Cpu) : Shows c ⟨c.reg, []⟩ (c.reg .esp).toNat := ⟨rfl, trivial, rfl⟩

/-- The same words, in another place of the code, with other flags. -/
theorem same (h : Shows c v top) {c' : Cpu} (hreg : c'.reg = c.reg) (hmem : c'.mem = c.mem) : Shows c' v top :=
  ⟨hreg.trans h.reg, by rw [hreg, hmem]; exact h.fits⟩

theorem setReg (h : Shows c v top) {r : Reg} (hr : r ≠ .esp) (w : UInt32) :
    Shows (c.setReg r w) (v.setReg r w) top where
  reg := by
    show Function.update c.reg r w = Function.update v.reg r w
    rw [h.reg]
  fits := by
    show Fits c.mem (Function.update c.reg r w .esp) v.words top
    rw [Function.update_of_ne (Ne.symm hr)]
    exact h.fits

theorem pushWord (h : Shows c v top) (htop : top < 2 ^ 32) (hroom : 4 * (v.words.length + 1) ≤ top) (w : UInt32) :
    Shows (c.pushWord w) (v.pushWord w) top ∧ SameAbove (c.reg .esp).toNat c.mem (c.pushWord w).mem := by
  obtain ⟨hfits, habove⟩ := h.fits.push htop.le hroom w
  refine ⟨⟨?_, ?_⟩, habove⟩
  · show Function.update c.reg .esp (c.reg .esp - 4) = Function.update v.reg .esp (v.reg .esp - 4)
    rw [h.reg]
  · show Fits (c.mem.store32 (c.reg .esp - 4) w) (Function.update c.reg .esp (c.reg .esp - 4) .esp) (w :: v.words) top
    rwa [Function.update_self]

theorem pushWords (ws : List UInt32) (h : Shows c v top) (htop : top < 2 ^ 32)
    (hroom : 4 * (v.words.length + ws.length) ≤ top) :
    Shows (c.pushWords ws) (v.pushWords ws) top ∧ SameAbove (c.reg .esp).toNat c.mem (c.pushWords ws).mem := by
  induction ws generalizing c v with
  | nil => exact ⟨h, .refl _ _⟩
  | cons w ws ih =>
    rw [List.length_cons] at hroom
    obtain ⟨hpush, habove⟩ := h.pushWord htop (by omega) w
    have hlen : (v.pushWord w).words.length = v.words.length + 1 := rfl
    obtain ⟨hall, habove'⟩ := ih hpush (by rw [hlen]; omega)
    refine ⟨hall, habove.trans habove' ?_⟩
    -- the stack pointer is lower than before
    have hold := h.fits.top
    have hnew := hpush.fits.top
    rw [hlen] at hnew
    omega

theorem word (h : Shows c v top) {k : ℕ} (hk : k < v.words.length) : c.word k = v.word k :=
  h.fits.words.get (by rw [View.word, List.getD_eq_getElem?_getD, List.getElem?_eq_getElem hk]; rfl)

theorem drop (h : Shows c v top) (htop : top < 2 ^ 32) {n : ℕ} (hn : n ≤ v.words.length) :
    Shows (c.addEsp (UInt32.ofNat (4 * n))) (v.drop n) top where
  reg := by
    show Function.update c.reg .esp (c.reg .esp + _) = Function.update v.reg .esp (v.reg .esp + _)
    rw [h.reg]
  fits := by
    show Fits c.mem (Function.update c.reg .esp _ .esp) (v.words.drop n) top
    rw [Function.update_self]
    exact h.fits.drop htop hn

theorem popAll (h : Shows c v top) (htop : top < 2 ^ 32) (hlen : 8 ≤ v.words.length) : Shows c.popAll v.popAll top where
  reg := funext fun r => by
    have hword : ∀ k < 8, c.word k = v.word k := fun k hk => h.word (hk.trans_le hlen)
    have hesp : c.reg .esp + 32 = v.reg .esp + 32 := congrArg (· .esp + 32) h.reg
    cases r with
    | esp => exact hesp
    | edi => exact hword 0 (by decide)
    | esi => exact hword 1 (by decide)
    | ebp => exact hword 2 (by decide)
    | ebx => exact hword 4 (by decide)
    | edx => exact hword 5 (by decide)
    | ecx => exact hword 6 (by decide)
    | eax => exact hword 7 (by decide)
  fits := h.fits.drop htop hlen

/-- What `iret` goes on with. -/
theorem returned (h : Shows c v top) (hlen : 3 ≤ v.words.length) (I : Image Λ φ) (next : UInt32) :
    (exec I next c .iret).toContext = v.returned c.sreg := by
  have hword : ∀ k < 3, c.word k = v.word k := fun k hk => h.word (hk.trans_le hlen)
  have hreg : (c.addEsp 12).reg = (v.drop 3).reg := by
    show Function.update c.reg .esp (c.reg .esp + 12) = Function.update v.reg .esp (v.reg .esp + _)
    rw [h.reg]
    rfl
  exact Context.ext hreg rfl (congrArg UInt32.toUInt16 (hword 1 (by decide))) (hword 0 (by decide))
    (hword 2 (by decide))

end Shows

section

variable {E : Env Λ φ} {Q : Context → Prop} {c : Cpu} {v : View} {top : ℕ} {i : Instr Λ φ} {code : List (Instr Λ φ)}

/-- Code at work, in its part of the stack. -/
structure Working (E : Env Λ φ) (Q : Context → Prop) (code : List (Instr Λ φ)) (c : Cpu) (top : ℕ)
    (v : View) : Prop where
  shows : Shows c v top
  sreg : c.sreg = E.sreg
  room : v.words.length ≤ E.depth
  goal : wp E Q code v

/-- An instruction that does not jump: code goes on with its work, and nothing at or above `esp` is written. -/
theorem wp_exec (h : Working E Q (i :: code) c top v) (htop : top < 2 ^ 32) (hroom : 4 * E.depth ≤ top)
    (hi : i.Straight) (I : Image Λ φ) (next : UInt32) :
    (exec I next c i).eip = next ∧ SameAbove (c.reg .esp).toNat c.mem (exec I next c i).mem ∧
      ∃ v', Working E Q code (exec I next c i) top v' := by
  obtain ⟨hs, hsreg, hlen, hwp⟩ := h
  have hesp : c.reg .esp = v.reg .esp := congrFun hs.reg .esp
  have hdrop : ∀ n, (v.words.drop n).length ≤ E.depth :=
    fun n => (List.length_drop ▸ Nat.sub_le _ _ : _ ≤ v.words.length).trans hlen
  cases i with
  | jmp | call | iret => cases hi
  | cli | sti => exact ⟨rfl, .refl _ _, v, hs.same rfl rfl, hsreg, hlen, hwp⟩
  | pushImm w =>
    obtain ⟨hpush, habove⟩ := hs.pushWord htop (by have := hwp.1; omega) w
    exact ⟨rfl, habove, _, hpush.same rfl rfl, hsreg, hwp.1, hwp.2⟩
  | push r =>
    obtain ⟨hpush, habove⟩ := hs.pushWord htop (by have := hwp.1; omega) (v.reg r)
    rw [← congrFun hs.reg r] at hpush habove
    refine ⟨rfl, habove, _, hpush.same rfl rfl, hsreg, hwp.1, ?_⟩
    rw [congrFun hs.reg r]
    exact hwp.2
  | pop r =>
    refine ⟨rfl, .refl _ _, _, ?_, hsreg, hdrop 1, hwp.2.2⟩
    rw [← hs.word hwp.2.1]
    exact ((hs.drop htop hwp.2.1).setReg hwp.1 _).same rfl rfl
  | pusha =>
    obtain ⟨hpush, habove⟩ := hs.pushWords (pushaOrder.map v.reg) htop (by have := hwp.1; simp [pushaOrder]; omega)
    rw [← hs.reg] at hpush habove
    refine ⟨rfl, habove, _, hpush.same rfl rfl, hsreg, hwp.1, ?_⟩
    rw [hs.reg]
    exact hwp.2
  | popa => exact ⟨rfl, .refl _ _, _, (hs.popAll htop hwp.1).same rfl rfl, hsreg, hdrop 8, hwp.2⟩
  | fromSreg r s =>
    refine ⟨rfl, .refl _ _, v.setReg r (setLow (v.reg r) (E.sreg s)), ?_, hsreg, hlen, hwp.2⟩
    rw [← hs.reg, ← hsreg]
    exact (hs.setReg hwp.1 _).same rfl rfl
  | toSreg s r =>
    refine ⟨rfl, .refl _ _, v, hs.same rfl rfl, ?_, hlen, hwp.2⟩
    show Function.update c.sreg s (c.reg r).toUInt16 = E.sreg
    rw [hs.reg, hwp.1, hsreg, Function.update_eq_self]
  | movImm16 r k =>
    refine ⟨rfl, .refl _ _, v.setReg r (setLow (v.reg r) k), ?_, hsreg, hlen, hwp.2⟩
    rw [← hs.reg]
    exact (hs.setReg hwp.1 _).same rfl rfl
  | addEsp k =>
    obtain ⟨hmod, hlt, hwp⟩ := hwp
    have hk : UInt32.ofNat (4 * (k.toNat / 4)) = k := by
      rw [Nat.mul_div_cancel' (Nat.dvd_of_mod_eq_zero hmod), UInt32.ofNat_toNat]
    have hesp' := hs.drop htop hlt
    rw [hk] at hesp'
    exact ⟨rfl, .refl _ _, _, hesp'.same rfl rfl, hsreg, hdrop _, hwp⟩

/-- A call leaves the return address below the words. -/
theorem wp_call {f : φ} (h : Working E Q (.call f :: code) c top v) (htop : top < 2 ^ 32) (hroom : 4 * E.depth ≤ top)
    (I : Image Λ φ) (next : UInt32) :
    Fits (exec I next c (.call f)).mem ((exec I next c (.call f)).reg .esp) (next :: v.words) top ∧
      SameAbove (c.reg .esp).toNat c.mem (exec I next c (.call f)).mem := by
  obtain ⟨hpush, habove⟩ := h.shows.pushWord htop (by have := h.goal.1; omega) next
  exact ⟨hpush.fits, habove⟩

/-- Where a function returns to. -/
def Cpu.ret (c : Cpu) : Cpu := (c.addEsp 4).goto (c.word 0)

/-- A function that returns, with the stack above its arguments as it found it. -/
theorem wp_ret {f : φ} (hwp : wp E Q (.call f :: code) v) (hlen : v.words.length ≤ E.depth) (htop : top < 2 ^ 32)
    (hsreg : c.sreg = E.sreg) (hesp : c.reg .esp + 4 = v.reg .esp) {ret : UInt32} {args : List UInt32}
    (hargs : args.length = E.args f) (hfits : Fits c.mem (c.reg .esp) (ret :: (args ++ v.words.drop (E.args f))) top) :
    c.ret.eip = ret ∧ ∃ v', Working E Q code c.ret top v' := by
  obtain ⟨-, hle, -, hback⟩ := hwp
  refine ⟨hfits.words.get (n := 0) rfl, ⟨c.ret.reg, args ++ v.words.drop (E.args f)⟩, ⟨rfl, ?_⟩, hsreg, ?_,
    hback _ _ ?_ hargs⟩
  · show Fits c.mem (Function.update c.reg .esp (c.reg .esp + 4) .esp) _ top
    rw [Function.update_self]
    exact hfits.drop htop (n := 1) (Nat.succ_le_succ (Nat.zero_le _))
  · rw [List.length_append, List.length_drop, hargs]
    omega
  · show Function.update c.reg .esp (c.reg .esp + 4) .esp = v.reg .esp
    rw [Function.update_self, hesp]

/-- The end: the context is the one that was to be. -/
theorem wp_iret (h : Working E Q (.iret :: code) c top v) (I : Image Λ φ) (next : UInt32) :
    Q (exec I next c .iret).toContext ∧ (exec I next c .iret).mem = c.mem := by
  obtain ⟨hlen, hq⟩ := h.goal
  rw [h.shows.returned hlen.ge I next, h.sreg]
  exact ⟨hq, rfl⟩

end

end MoltarOS.Lib.Asm
