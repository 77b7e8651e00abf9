import MoltarOS.Lib.Loop
import MoltarOS.Libc.String

/-!
# `printf`

`libc/stdio/printf.c`: `printf` sends characters to `putchar`, `sprintf` to memory, and both go through `print`, which
reads the format and the strings from memory as it goes.

An `int` is a 32-bit word. A read of an argument that is not there, a width, a length or a count of characters that an
`int` does not hold, a character below `print_buf` and a loop without an end are faults.

## What is proved

* Characters sent to memory are there afterwards, one after the other, and all other bytes are as before.
-/

namespace MoltarOS.Libc

open MoltarOS.Lib MoltarOS.Lib.Word

/-! ### The code -/

/-- What the C program must not do. -/
inductive Fault where
  /-- A loop comes round the address space without finding a 0. -/
  | endless
  /-- `*--s` below `print_buf`. -/
  | printBuf
  /-- `va_arg` after the last argument. -/
  | vaArg
  /-- Signed overflow in `width`. -/
  | width
  /-- Signed overflow in `pc` or `len`. -/
  | count
  deriving DecidableEq, Repr

/-- `pc + n`, of numbers that an `int` holds. -/
def intAdd (pc n : ℕ) : Except Fault ℕ := if pc + n < 2 ^ 31 then .ok (pc + n) else .error .count

/-- Where the characters go: from `*str` on, or to `putchar` if `str` is NULL. -/
structure Out where
  /-- The memory. -/
  mem : Mem
  /-- `*str`. -/
  str : Option UInt32
  /-- What `putchar` was given. -/
  screen : List UInt8

/-- `printchar(str, c)`. -/
def printchar (out : Out) (c : UInt8) : Out :=
  match out.str with
  | some str => { out with mem := out.mem.set str c, str := some (str + 1) }
  | none => { out with screen := out.screen ++ [c] }

/-- `pad`, a set of two flags. -/
structure Pad where
  /-- `PAD_RIGHT`. -/
  right : Bool
  /-- `PAD_ZERO`. -/
  zero : Bool
  deriving DecidableEq

/-- More turns than there are addresses. -/
def turns : ℕ := 2 ^ 32

/-- `string[i]`, at the time of reading: of a string in memory, -/
def inMem (string : UInt32) : Out → ℕ → UInt8 := fun out i => out.mem (string + UInt32.ofNat i)

/-- and of one that the function itself has. -/
def onStack (text : List UInt8) : Out → ℕ → UInt8 := fun _ i => text.getD i 0

/-- `for (ptr = string; *ptr; ++ptr) ++len;`. -/
def lenLoop (string : ℕ → UInt8) : ℕ → ℕ → Except Fault ℕ
  | 0, _ => .error .endless
  | fuel + 1, len =>
    if string len = 0 then .ok len
    else do
      let len ← intAdd len 1
      lenLoop string fuel len

/-- `for ( ; width > 0; --width) { printchar (out, padchar); ++pc; }`. -/
def padLoop (padchar : UInt8) : ℕ → Out × ℕ → Except Fault (Out × ℕ)
  | 0, s => .ok s
  | width + 1, (out, pc) => do
    let pc ← intAdd pc 1
    padLoop padchar width (printchar out padchar, pc)

/-- `for ( ; *string ; ++string) { printchar (out, *string); ++pc; }`. -/
def copyLoop (string : Out → ℕ → UInt8) : ℕ → ℕ → Out × ℕ → Except Fault (Out × ℕ)
  | 0, _, _ => .error .endless
  | fuel + 1, i, (out, pc) =>
    if string out i = 0 then .ok (out, pc)
    else do
      let pc ← intAdd pc 1
      copyLoop string fuel (i + 1) (printchar out (string out i), pc)

/-- The first lines of `prints`: what becomes of `width`, and `padchar`. -/
def padding (string : ℕ → UInt8) (width : ℕ) (pad : Pad) : Except Fault (ℕ × UInt8) :=
  if 0 < width then do
    let len ← lenLoop string turns 0
    .ok (if width ≤ len then 0 else width - len, if pad.zero then '0'.toUInt8 else ' '.toUInt8)
  else .ok (width, ' '.toUInt8)

/-- `prints(out, string, width, pad)`; no caller has a negative width. -/
def prints (string : Out → ℕ → UInt8) (width : ℕ) (pad : Pad) (out : Out) : Except Fault (Out × ℕ) := do
  let (width, padchar) ← padding (string out) width pad
  if pad.right then
    let s ← copyLoop string turns 0 (out, 0)
    padLoop padchar width s
  else do
    let s ← padLoop padchar width (out, 0)
    copyLoop string turns 0 s

/-- `PRINT_BUF_LEN`. -/
def printBufLen : ℕ := 12

/-- `*--s = c`, `s` being the bytes from there to the end of `print_buf`. -/
def push (s : List UInt8) (c : UInt8) : Except Fault (List UInt8) :=
  if s.length < printBufLen then .ok (c :: s) else .error .printBuf

/-- `while (u) { t = u % b; if( t >= 10 ) t += letbase - '0' - 10; *--s = t + '0'; u /= b; }`. -/
def digitsLoop (b letbase : UInt32) : ℕ → UInt32 → List UInt8 → Except Fault (List UInt8)
  | 0, _, _ => .error .endless
  | fuel + 1, u, s =>
    if u = 0 then .ok s
    else do
      let t := u % b
      let t := if 10 ≤ t then t + (letbase - 48 - 10) else t
      let s ← push s (t + 48).toUInt8
      digitsLoop b letbase fuel (u / b) s

/-- `if (neg) ...` of `printi`: the text, the width, and the characters sent. -/
def sign (neg : Bool) (s : List UInt8) (width : ℕ) (pad : Pad) (out : Out) : Except Fault (List UInt8 × ℕ × Out × ℕ) :=
  if neg then
    if 0 < width ∧ pad.zero then .ok (s, width - 1, printchar out '-'.toUInt8, 1)
    else do
      let s ← push s '-'.toUInt8
      .ok (s, width, out, 0)
  else .ok (s, width, out, 0)

/-- `printi(out, i, b, sg, width, pad, letbase)`. The negation of the least `int` is itself. -/
def printi (i b : UInt32) (sg : Bool) (width : ℕ) (pad : Pad) (letbase : UInt32) (out : Out) : Except Fault (Out × ℕ) :=
  if i = 0 then prints (onStack ['0'.toUInt8, 0]) width pad out
  else do
    let neg := sg && b = 10 && 0x80000000 ≤ i
    let u := if neg then -i else i
    let s ← digitsLoop b letbase turns u [0]
    let (s, width, out, pc) ← sign neg s width pad out
    let (out, n) ← prints (onStack s) width pad out
    let pc ← intAdd pc n
    .ok (out, pc)

/-- `va_arg(args, int)`. -/
def vaArg : List UInt32 → Except Fault (UInt32 × List UInt32)
  | [] => .error .vaArg
  | a :: args => .ok (a, args)

/-- `while (*format == '0') { ++format; pad |= PAD_ZERO; }`. -/
def zerosLoop (m : Mem) : ℕ → UInt32 → Pad → Except Fault (UInt32 × Pad)
  | 0, _, _ => .error .endless
  | fuel + 1, format, pad =>
    if m format = '0'.toUInt8 then zerosLoop m fuel (format + 1) { pad with zero := true } else .ok (format, pad)

/-- `c >= '0' && c <= '9'`. -/
def IsDigit (c : UInt8) : Prop := '0'.toUInt8 ≤ c ∧ c ≤ '9'.toUInt8

instance : DecidablePred IsDigit := fun c => inferInstanceAs (Decidable ('0'.toUInt8 ≤ c ∧ c ≤ '9'.toUInt8))

/-- `for ( ; *format >= '0' && *format <= '9'; ++format) { width *= 10; width += *format - '0'; }`. -/
def widthLoop (m : Mem) : ℕ → UInt32 → ℕ → Except Fault (UInt32 × ℕ)
  | 0, _, _ => .error .endless
  | fuel + 1, format, width =>
    if IsDigit (m format) then
      let width := width * 10 + (m format - '0'.toUInt8).toNat
      if width < 2 ^ 31 then widthLoop m fuel (format + 1) width else .error .width
    else .ok (format, width)

/-- The flags of a directive: where they end, `pad` and `width`. -/
def scanFlags (m : Mem) (format : UInt32) : Except Fault (UInt32 × Pad × ℕ) := do
  let (format, pad) := if m format = '-'.toUInt8 then (format + 1, Pad.mk true false) else (format, Pad.mk false false)
  let (format, pad) ← zerosLoop m turns format pad
  let (format, width) ← widthLoop m turns format 0
  .ok (format, pad, width)

/-- What `print` does at the letter of a directive, with the arguments that are left and the characters printed. -/
def printArg (letter : UInt8) (args : List UInt32) (width : ℕ) (pad : Pad) (out : Out) :
    Except Fault (List UInt32 × Out × ℕ) :=
  let number (b : UInt32) (sg : Bool) (letbase : Char) : Except Fault (List UInt32 × Out × ℕ) := do
    let (i, args) ← vaArg args
    let r ← printi i b sg width pad letbase.val out
    .ok (args, r)
  if letter = 's'.toUInt8 then do
    let (s, args) ← vaArg args
    let r ← prints (if s ≠ 0 then inMem s else onStack (("(null)".toList.map Char.toUInt8) ++ [0])) width pad out
    .ok (args, r)
  else if letter = 'd'.toUInt8 then number 10 true 'a'
  else if letter = 'x'.toUInt8 then number 16 false 'a'
  else if letter = 'X'.toUInt8 then number 16 false 'A'
  else if letter = 'u'.toUInt8 then number 10 false 'a'
  else if letter = 'c'.toUInt8 then do
    let (c, args) ← vaArg args
    let r ← prints (onStack [c.toUInt8, 0]) width pad out
    .ok (args, r)
  else .ok (args, out, 0)

/-- The loop of `print`, from `format` on. -/
def printLoop : ℕ → UInt32 → List UInt32 → Out × ℕ → Except Fault (Out × ℕ)
  | 0, _, _, _ => .error .endless
  | fuel + 1, format, args, (out, pc) =>
    if out.mem format = 0 then .ok (out, pc)
    else if out.mem format = '%'.toUInt8 then
      let format := format + 1
      if out.mem format = 0 then .ok (out, pc)
      else if out.mem format = '%'.toUInt8 then do
        let pc ← intAdd pc 1
        printLoop fuel (format + 1) args (printchar out (out.mem format), pc)
      else do
        let (format, pad, width) ← scanFlags out.mem format
        let (args, out, n) ← printArg (out.mem format) args width pad out
        let pc ← intAdd pc n
        -- also after a letter that is the 0
        printLoop fuel (format + 1) args (out, pc)
    else do
      let pc ← intAdd pc 1
      printLoop fuel (format + 1) args (printchar out (out.mem format), pc)

/-- `if (out) **out = '\0';`. -/
def terminate (out : Out) : Out :=
  match out.str with
  | some str => { out with mem := out.mem.set str 0 }
  | none => out

/-- `print(out, format, args)`. -/
def print (out : Out) (format : UInt32) (args : List UInt32) : Except Fault (Out × ℕ) := do
  let (out, pc) ← printLoop turns format args (out, 0)
  .ok (terminate out, pc)

/-- `printf(format, ...)`: what is shown, and the result. -/
def printf (m : Mem) (format : UInt32) (args : List UInt32) : Except Fault (List UInt8 × ℕ) := do
  let (out, pc) ← print { mem := m, str := none, screen := [] } format args
  .ok (out.screen, pc)

/-- `sprintf(out, format, ...)`: the memory, and the result. -/
def sprintf (m : Mem) (out format : UInt32) (args : List UInt32) : Except Fault (Mem × ℕ) := do
  let (out, pc) ← print { mem := m, str := some out, screen := [] } format args
  .ok (out.mem, pc)

/-! ### Counting -/

theorem intAdd_of_lt {pc n : ℕ} (h : pc + n < 2 ^ 31) : intAdd pc n = .ok (pc + n) := if_pos h

theorem intAdd_of_le {pc n : ℕ} (h : 2 ^ 31 ≤ pc + n) : intAdd pc n = .error .count := if_neg (Nat.not_lt.mpr h)

theorem intAdd_eq_ok {pc n k : ℕ} (h : intAdd pc n = .ok k) : k = pc + n ∧ pc + n < 2 ^ 31 := by
  unfold intAdd at h
  split_ifs at h with hlt
  exact ⟨(Except.ok.inj h).symm, hlt⟩

/-! ### Characters sent -/

theorem printchar_of_none {out : Out} (h : out.str = none) (c : UInt8) :
    printchar out c = { out with screen := out.screen ++ [c] } := by rw [printchar, h]

theorem printchar_of_some {out : Out} {str : UInt32} (h : out.str = some str) (c : UInt8) :
    printchar out c = { out with mem := out.mem.set str c, str := some (str + 1) } := by rw [printchar, h]

theorem printchar_str {out : Out} {str : UInt32} (h : out.str = some str) (c : UInt8) :
    (printchar out c).str = some (str + 1) := by
  rw [printchar_of_some h]

namespace Out

/-- Send one character after the other. -/
def emit (out : Out) (text : List UInt8) : Out := text.foldl printchar out

variable (out : Out) (text text' : List UInt8) (c : UInt8)

@[simp] theorem emit_nil : out.emit [] = out := rfl

theorem emit_cons : out.emit (c :: text) = (printchar out c).emit text := rfl

theorem emit_append : out.emit (text ++ text') = (out.emit text).emit text' := List.foldl_append

variable {out}

theorem emit_screen (h : out.str = none) : out.emit text = { out with screen := out.screen ++ text } := by
  induction text generalizing out with
  | nil => simp
  | cons c text ih =>
    have hnone : (printchar out c).str = none := by rw [printchar_of_none h, h]
    rw [emit_cons, ih hnone, printchar_of_none h]
    simp

theorem emit_str {str : UInt32} (h : out.str = some str) :
    (out.emit text).str = some (str + UInt32.ofNat text.length) := by
  induction text generalizing out str with
  | nil =>
    rw [emit_nil, h]
    exact congrArg some (UInt32.add_zero str).symm
  | cons c text ih =>
    have hnext : str + 1 + UInt32.ofNat text.length = str + (UInt32.ofNat text.length + 1) := by grind
    rw [emit_cons, ih (printchar_str h c), List.length_cons, ofNat_add_one, hnext]

/-- The characters in memory. -/
theorem emit_mem {str : UInt32} (h : out.str = some str) (hlen : text.length ≤ 2 ^ 32) (a : UInt32) :
    (out.emit text).mem a = if dist str a < text.length then text.getD (dist str a) 0 else out.mem a := by
  induction text generalizing out str with
  | nil => rfl
  | cons c text ih =>
    rw [List.length_cons] at hlen ⊢
    have hmem : (printchar out c).mem a = if a = str then c else out.mem a := by
      rw [printchar_of_some h]
      exact Mem.set_apply _ _ _ _
    rw [emit_cons, ih (printchar_str h c) (by omega), hmem]
    by_cases ha : a = str
    · -- the address after all others
      have htop : dist (str + 1) a + 1 = dist str a + 2 ^ 32 :=
        dist_add_left_of_lt (k := 1) (by rw [ha, dist_self]; decide) (by decide)
      have hzero : dist str a = 0 := by rw [ha, dist_self]
      rw [if_neg (by omega), if_pos ha, if_pos (by omega), hzero, List.getD_cons_zero]
    · have hnext := dist_add_one ha
      rw [if_neg ha]
      by_cases hlt : dist (str + 1) a < text.length
      · rw [if_pos hlt, if_pos (by omega), ← hnext, List.getD_cons_succ]
      · rw [if_neg hlt, if_neg (by omega)]

/-! ### What stays -/

/-- The next `n` characters do not go to address `a`. -/
def Keeps (out : Out) (n : ℕ) (a : UInt32) : Prop := ∀ str, out.str = some str → n ≤ dist str a

theorem Keeps.mono {n n' : ℕ} {a : UInt32} (h : out.Keeps n a) (hle : n' ≤ n) : out.Keeps n' a :=
  fun str hstr => hle.trans (h str hstr)

theorem keeps_of_none {n : ℕ} {a : UInt32} (h : out.str = none) : out.Keeps n a := fun str hstr => by
  rw [h] at hstr
  cases hstr

theorem Keeps.emit_mem {a : UInt32} {text : List UInt8} (h : out.Keeps text.length a) :
    (out.emit text).mem a = out.mem a := by
  cases hstr : out.str with
  | none => rw [emit_screen text hstr]
  | some str =>
    have hle := h str hstr
    have hlt := dist_lt str a
    rw [Out.emit_mem text hstr (by omega), if_neg (by omega)]

end Out

end MoltarOS.Libc
