import MoltarOS.Drivers.VgaColor
import MoltarOS.Drivers.VgaSafety
import MoltarOS.Libc.String

/-!
# Printing to a reserved part

`vga_print_reserved` counts its destination in cells and its lengths in bytes: `memcpy` puts two
characters of the string into a cell, the second one where the attribute belongs, and `memset` clears half of
the cells that are left.

## What is proved

* `vgaPrintReserved_spec` — what the 20 cells hold afterwards, byte by byte; no other cell changes.
* `vgaPrintReserved_iff` — that is the string in the current colour, followed by blanks, exactly if the characters
  after the first are all the colour's byte, and the screen already showed the rest.
-/

namespace MoltarOS.Drivers

open MoltarOS.Lib MoltarOS.Lib.Word MoltarOS.Libc

namespace Vga

variable {s t : Vga}

/-! ### The buffer as memory -/

/-- The address of the text-mode buffer. -/
def VGA_BUFFER : UInt32 := 0xC00B8000

/-- The address is one of the buffer. -/
def OnScreen (a : UInt32) : Prop := dist VGA_BUFFER a < 2 * (vgaHeight * vgaWidth)

instance : DecidablePred OnScreen := fun a =>
    inferInstanceAs (Decidable (dist VGA_BUFFER a < 2 * (vgaHeight * vgaWidth)))

/-- Byte `b` of the buffer: the characters are at even addresses, the attributes at odd ones. -/
def bufByte (buf : ℕ → UInt16) (b : ℕ) : UInt8 :=
  if b % 2 = 0 then charByte (buf (b / 2)) else attributeByte (buf (b / 2))

/-- The memory with the buffer in its place. -/
def mapped (buf : ℕ → UInt16) (m : Mem) : Mem := fun a => if OnScreen a then bufByte buf (dist VGA_BUFFER a) else m a

/-- The buffer that is in its place in memory. -/
def unmapped (buf : ℕ → UInt16) (m : Mem) : ℕ → UInt16 := fun n =>
  if n < vgaHeight * vgaWidth then
    (m (VGA_BUFFER + UInt32.ofNat (2 * n))).toUInt16 ||| (m (VGA_BUFFER + UInt32.ofNat (2 * n + 1))).toUInt16 <<< 8
  else buf n

/-! ### The code -/

/-- `vga_print_reserved`: copy to cell `n` of the buffer, and clear what is after it. -/
def fillReserved (m : Mem) (str : UInt32) (n len : ℕ) : Mem :=
  let m := (memcpy m (VGA_BUFFER + UInt32.ofNat (2 * n)) str (UInt32.ofNat len)).1
  memset m (VGA_BUFFER + UInt32.ofNat (2 * (n + len))) 0 (UInt32.ofNat (20 - len))

/-- `vga_print_reserved(str, type)`. -/
def vgaPrintReserved (m : Mem) (str : UInt32) (type : ℕ) (s : Vga) : Except Fault Vga := do
  let s ← s.vgaSetX 60
  let s ← s.vgaSetY type
  let len := min (strlen m str) 20
  .ok (s.withBuf (unmapped s.buf (fillReserved (mapped s.buf m) str (type * vgaWidth + 60) len)))

/-! ### What it writes -/

theorem onScreen_byte {b : ℕ} (hb : b < 2 * (vgaHeight * vgaWidth)) : OnScreen (VGA_BUFFER + UInt32.ofNat b) := by
  simp only [vgaHeight, vgaWidth] at hb
  rw [OnScreen, dist_add_ofNat VGA_BUFFER (by omega)]
  exact hb

theorem mapped_byte (buf : ℕ → UInt16) (m : Mem) {b : ℕ} (hb : b < 2 * (vgaHeight * vgaWidth)) :
    mapped buf m (VGA_BUFFER + UInt32.ofNat b) = bufByte buf b := by
  rw [mapped, if_pos (onScreen_byte hb)]
  simp only [vgaHeight, vgaWidth] at hb
  rw [dist_add_ofNat VGA_BUFFER (by omega)]

theorem bufByte_char (buf : ℕ → UInt16) (n : ℕ) : bufByte buf (2 * n) = charByte (buf n) := by
  rw [bufByte, if_pos (by omega), Nat.mul_div_cancel_left n Nat.two_pos]

theorem bufByte_attribute (buf : ℕ → UInt16) (n : ℕ) : bufByte buf (2 * n + 1) = attributeByte (buf n) := by
  rw [bufByte, if_neg (by omega), show (2 * n + 1) / 2 = n by omega]

theorem charByte_unmapped (buf : ℕ → UInt16) (m : Mem) {n : ℕ} (hn : n < vgaHeight * vgaWidth) :
    charByte (unmapped buf m n) = m (VGA_BUFFER + UInt32.ofNat (2 * n)) := by
  rw [unmapped, if_pos hn, charByte_or, UInt8.toUInt8_toUInt16]

theorem attributeByte_unmapped (buf : ℕ → UInt16) (m : Mem) {n : ℕ} (hn : n < vgaHeight * vgaWidth) :
    attributeByte (unmapped buf m n) = m (VGA_BUFFER + UInt32.ofNat (2 * n + 1)) := by
  have hhigh : ∀ c : UInt8, (c.toUInt16 >>> 8).toUInt8 = 0 := fun c => by
    apply UInt8.toBitVec_inj.mp
    ext i hi
    simp
  rw [unmapped, if_pos hn, attributeByte_or, hhigh]
  exact UInt8.zero_or

/-- Byte `b` of the buffer afterwards, when the first `len` bytes of `text` are copied to cell `n` and the cells
from `n + len` on are cleared. -/
def reservedByte (s : Vga) (n len : ℕ) (text : List UInt8) (b : ℕ) : UInt8 :=
  if 2 * (n + len) ≤ b ∧ b < 2 * (n + len) + (20 - len) then 0
  else if 2 * n ≤ b ∧ b < 2 * n + len then text.getD (b - 2 * n) 0
  else bufByte s.buf b

/-- The string is in memory, outside of the buffer. -/
structure StringOff (m : Mem) (str : UInt32) (text : List UInt8) : Prop where
  /-- The string. -/
  string : CString m str text
  /-- None of it is in the buffer. -/
  off : ∀ i ≤ text.length, ¬OnScreen (str + UInt32.ofNat i)

section Bytes

variable {m : Mem} {str : UInt32} {text : List UInt8} {n len : ℕ}

/-- `memcpy` to cell `n`. -/
theorem memcpy_byte (h : StringOff m str text) (hn : n + 20 ≤ vgaHeight * vgaWidth) (hlen : len ≤ text.length)
    (hlen' : len ≤ 20) {b : ℕ} (hb : b < 2 * (vgaHeight * vgaWidth)) :
    (memcpy (mapped s.buf m) (VGA_BUFFER + UInt32.ofNat (2 * n)) str (UInt32.ofNat len)).1
      (VGA_BUFFER + UInt32.ofNat b) =
      if 2 * n ≤ b ∧ b < 2 * n + len then text.getD (b - 2 * n) 0 else bufByte s.buf b := by
  have hsize : 2 * (vgaHeight * vgaWidth) = 4000 := rfl
  have hword : (UInt32.ofNat len).toNat = len := toNat_ofNat_of_lt (by omega)
  have hspan : dist (VGA_BUFFER + UInt32.ofNat (2 * n)) (VGA_BUFFER + UInt32.ofNat b) < len ↔
    2 * n ≤ b ∧ b < 2 * n + len :=
    dist_ofNat_lt_iff VGA_BUFFER (by omega) (by omega) (by omega)
  -- the string is not where the copy goes
  have hread : ∀ i < len, i ≤ dist (VGA_BUFFER + UInt32.ofNat (2 * n)) (str + UInt32.ofNat i) := by
    intro i hi
    refine not_lt.mp fun hlt => h.off i (by omega) ?_
    have hfrom := dist_eq_add (a := VGA_BUFFER) (b := str + UInt32.ofNat i) (k := 2 * n) (by omega)
    rw [OnScreen, hfrom]
    omega
  rw [memcpy_copied _ (by rwa [hword]), hword, Mem.copied]
  by_cases hin : 2 * n ≤ b ∧ b < 2 * n + len
  · have hdist : dist (VGA_BUFFER + UInt32.ofNat (2 * n)) (VGA_BUFFER + UInt32.ofNat b) = b - 2 * n := by
      have hb' : dist VGA_BUFFER (VGA_BUFFER + UInt32.ofNat b) = b := dist_add_ofNat VGA_BUFFER (by omega)
      rw [dist_add_left (hb'.symm ▸ hin.1), hb']
    rw [if_pos ⟨Nat.zero_le _, hspan.mpr hin⟩, if_pos hin, hdist, mapped, if_neg (h.off _ (by omega))]
    exact h.string.char _ (by omega)
  · rw [if_neg fun hc => hin (hspan.mp hc.2), if_neg hin, mapped_byte _ _ hb]

/-- `memcpy` and `memset`. -/
theorem fillReserved_byte (h : StringOff m str text) (hn : n + 20 ≤ vgaHeight * vgaWidth) (hlen : len ≤ text.length)
    (hlen' : len ≤ 20) {b : ℕ} (hb : b < 2 * (vgaHeight * vgaWidth)) :
    fillReserved (mapped s.buf m) str n len (VGA_BUFFER + UInt32.ofNat b) = s.reservedByte n len text b := by
  have hsize : 2 * (vgaHeight * vgaWidth) = 4000 := rfl
  have hrest : (UInt32.ofNat (20 - len)).toNat = 20 - len := toNat_ofNat_of_lt (by omega)
  rw [fillReserved, memset_apply, hrest]
  exact if_congr (dist_ofNat_lt_iff VGA_BUFFER (by omega) (by omega) (by omega)) rfl (memcpy_byte h hn hlen hlen' hb)

/-- **What `vga_print_reserved` does to the buffer.** -/
theorem vgaPrintReserved_spec (hs : s.Inv) (h : StringOff m str text) {type : ℕ} (htype : type < vgaHeight) :
    ∃ t, vgaPrintReserved m str type s = .ok t ∧ ∀ n < vgaHeight * vgaWidth,
      charByte (t.buf n) = s.reservedByte (type * vgaWidth + 60) (min text.length 20) text (2 * n) ∧
        attributeByte (t.buf n) = s.reservedByte (type * vgaWidth + 60) (min text.length 20) text (2 * n + 1) := by
  have hcell : type * vgaWidth + 60 + 20 ≤ vgaHeight * vgaWidth := by
    simp only [vgaWidth, vgaHeight] at *
    omega
  have hlen : min text.length 20 ≤ text.length := Nat.min_le_left _ _
  have hlen' : min text.length 20 ≤ 20 := Nat.min_le_right _ _
  refine ⟨(s.cursorAt 60 type).withBuf (unmapped s.buf
    (fillReserved (mapped s.buf m) str (type * vgaWidth + 60) (min text.length 20))), ?_, fun n hn => ⟨?_, ?_⟩⟩
  · rw [vgaPrintReserved, strlen_eq h.string]
    exact vgaSetXY_bind _ hs (by decide) htype
  · exact (charByte_unmapped _ _ hn).trans (fillReserved_byte h hcell hlen hlen' (by omega))
  · exact (attributeByte_unmapped _ _ hn).trans (fillReserved_byte h hcell hlen hlen' (by omega))

end Bytes

/-! ### When that is what it is for -/

/-- `t` is `s` with the first 20 characters of the text in columns 60 to 79 of row `type`, in the current colour, and
blanks after them. -/
structure ReservedShown (s t : Vga) (type : ℕ) (text : List UInt8) : Prop where
  /-- One character a cell. -/
  shown : ∀ i < min text.length 20,
    charByte (t.cell type (60 + i)) = text.getD i 0 ∧ attributeByte (t.cell type (60 + i)) = s.color
  /-- The rest is blank. -/
  blank : ∀ i < 20, min text.length 20 ≤ i → Blank (t.cell type (60 + i))
  /-- No other cell changes. -/
  frame : ∀ n < vgaHeight * vgaWidth, ¬(n / vgaWidth = type ∧ 60 ≤ n % vgaWidth) → t.buf n = s.buf n

/-- What is overwritten with the characters of other cells is overwritten with what belongs there, and what is left
already is what it is to be. -/
structure ReservedReady (s : Vga) (type : ℕ) (text : List UInt8) : Prop where
  /-- The characters after the first are the byte of the colour. -/
  color : ∀ i, 1 ≤ i → i < min text.length 20 → text.getD i 0 = s.color
  /-- The second half of the text is there. -/
  char : ∀ i < min text.length 20, min text.length 20 ≤ 2 * i → charByte (s.cell type (60 + i)) = text.getD i 0
  /-- It has the colour. -/
  attr : ∀ i < min text.length 20, min text.length 20 ≤ 2 * i + 1 → attributeByte (s.cell type (60 + i)) = s.color
  /-- The second half of what follows is blank. -/
  blank : ∀ i < 20, min text.length 20 + 20 ≤ 2 * i → Blank (s.cell type (60 + i))

section Cells

variable {type len : ℕ} {text : List UInt8}

/-- Byte `b` of the 20 cells. -/
theorem reservedByte_add (s : Vga) (n len : ℕ) (text : List UInt8) (b : ℕ) :
    s.reservedByte n len text (2 * n + b) =
      if 2 * len ≤ b ∧ b < len + 20 ∧ len ≤ 20 then 0
      else if b < len then text.getD b 0 else bufByte s.buf (2 * n + b) := by
  rw [reservedByte, Nat.add_sub_cancel_left]
  exact if_congr (by omega) rfl (if_congr (by omega) rfl rfl)

/-- Outside the 20 cells. -/
theorem reservedByte_of_not (s : Vga) {n b : ℕ} (hlen : len ≤ 20) (text : List UInt8)
    (hb : ¬(2 * n ≤ b ∧ b < 2 * n + 40)) :
    s.reservedByte n len text b = bufByte s.buf b := by
  rw [reservedByte, if_neg (by omega), if_neg (by omega)]

/-- The bytes of cell `i` of the 20. -/
theorem reservedByte_char (s : Vga) (hlen : len ≤ 20) (text : List UInt8) (i : ℕ) :
    s.reservedByte (type * vgaWidth + 60) len text (2 * (type * vgaWidth + 60 + i)) =
      if len ≤ i ∧ 2 * i < len + 20 then 0
      else if 2 * i < len then text.getD (2 * i) 0 else charByte (s.cell type (60 + i)) := by
  rw [Nat.mul_add, reservedByte_add, ← Nat.mul_add, bufByte_char, Nat.add_assoc]
  exact if_congr (by omega) rfl rfl

theorem reservedByte_attr (s : Vga) (hlen : len ≤ 20) (text : List UInt8) (i : ℕ) :
    s.reservedByte (type * vgaWidth + 60) len text (2 * (type * vgaWidth + 60 + i) + 1) =
      if len ≤ i ∧ 2 * i + 1 < len + 20 then 0
      else if 2 * i + 1 < len then text.getD (2 * i + 1) 0 else attributeByte (s.cell type (60 + i)) := by
  rw [Nat.mul_add, Nat.add_assoc, reservedByte_add, ← Nat.add_assoc, ← Nat.mul_add, bufByte_attribute, Nat.add_assoc]
  exact if_congr (by omega) rfl rfl

end Cells

/-- **When `vga_print_reserved` shows the string.** It always leaves the other cells; the string is there exactly if the
characters and the cells before the call were `ReservedReady`. -/
theorem vgaPrintReserved_iff {m : Mem} {str : UInt32} {text : List UInt8} {type : ℕ} (hs : s.Inv)
    (h : StringOff m str text) (htype : type < vgaHeight) :
    (∃ t, vgaPrintReserved m str type s = .ok t ∧ ReservedShown s t type text) ↔ ReservedReady s type text := by
  obtain ⟨t, ht, hbytes⟩ := vgaPrintReserved_spec hs h htype
  have hlen : min text.length 20 ≤ 20 := Nat.min_le_right _ _
  have hcell : ∀ i < 20, type * vgaWidth + 60 + i < vgaHeight * vgaWidth := fun i hi => by
    simp only [vgaWidth, vgaHeight] at *
    omega
  have hchar := fun i hi => (hbytes _ (hcell i hi)).1.trans (reservedByte_char s hlen text i)
  have hattr := fun i hi => (hbytes _ (hcell i hi)).2.trans (reservedByte_attr s hlen text i)
  have hexists : (∃ t, vgaPrintReserved m str type s = .ok t ∧ ReservedShown s t type text) ↔
      ReservedShown s t type text := by
    simp only [ht, Except.ok.injEq, exists_eq_left']
  simp only [Nat.add_assoc] at hchar hattr
  -- neither copied nor cleared
  have hleft : ∀ i < 20, min text.length 20 ≤ 2 * i → i < min text.length 20 ∨ min text.length 20 + 20 ≤ 2 * i →
      charByte (t.cell type (60 + i)) = charByte (s.cell type (60 + i)) := fun i hi hge hor =>
    (hchar i hi).trans ((if_neg (by omega)).trans (if_neg (by omega)))
  rw [hexists]
  constructor
  · intro hsh
    refine ⟨fun i hi hlt => ?_, fun i hlt hge => ?_, fun i hlt hge => ?_, fun i hi hge => ?_⟩
    · -- an odd one is where an attribute belongs, an even one where an earlier character does
      induction i using Nat.strong_induction_on with
      | _ i ih =>
        obtain ⟨j, rfl | rfl⟩ : ∃ j, i = 2 * j ∨ i = 2 * j + 1 := ⟨i / 2, by omega⟩
        · have hj := (hsh.shown j (by omega)).1
          rw [← ih j (by omega) (by omega) (by omega), ← hj]
          exact ((hchar j (by omega)).trans ((if_neg (by omega)).trans (if_pos hlt))).symm
        · have hj := (hsh.shown j (by omega)).2
          rw [← hj]
          exact ((hattr j (by omega)).trans ((if_neg (by omega)).trans (if_pos hlt))).symm
    · rw [← hleft i (by omega) hge (.inl hlt)]
      exact (hsh.shown i hlt).1
    · rw [← (hsh.shown i hlt).2]
      exact ((hattr i (by omega)).trans ((if_neg (by omega)).trans (if_neg (by omega)))).symm
    · have hblank := hsh.blank i hi (by omega)
      rw [Blank] at hblank ⊢
      rwa [hleft i hi (by omega) (.inr hge)] at hblank
  · intro hr
    refine ⟨fun i hlt => ⟨(hchar i (by omega)).trans ?_, (hattr i (by omega)).trans ?_⟩, fun i hi hge => ?_,
      fun n hn hout => ?_⟩
    · rw [if_neg (by omega)]
      split_ifs with hhalf
      · rcases Nat.eq_zero_or_pos i with rfl | hpos
        · rfl
        · rw [hr.color _ (by omega) hhalf, hr.color i hpos hlt]
      · exact hr.char i hlt (by omega)
    · rw [if_neg (by omega)]
      split_ifs with hhalf
      · exact hr.color _ (by omega) hhalf
      · exact hr.attr i hlt (by omega)
    · by_cases hclear : 2 * i < min text.length 20 + 20
      · exact .inr ((hchar i hi).trans (if_pos ⟨hge, hclear⟩))
      · rw [Blank, hleft i hi (by omega) (.inr (by omega))]
        exact hr.blank i hi (by omega)
    · simp only [vgaWidth] at *
      have hb := hbytes n hn
      rw [reservedByte_of_not s hlen text (by omega), reservedByte_of_not s hlen text (by omega), bufByte_char,
        bufByte_attribute] at hb
      exact cell_ext hb.1 hb.2

/-- `Hi`, at `0x1000`. -/
def hiMem : Mem := fun a => if a = 0x1000 then 72 else if a = 0x1001 then 105 else 0

theorem stringOff_hi : StringOff hiMem 0x1000 [72, 105] := ⟨⟨by decide, by decide, by decide⟩, by decide⟩

theorem stringOff_i : StringOff hiMem 0x1001 [105] := ⟨⟨by decide, by decide, by decide⟩, by decide⟩

/-- Its second character alone, on a blank screen in the current colour. -/
theorem vgaPrintReserved_iff_char :
    ∃ t, vgaPrintReserved hiMem 0x1001 1 (plainScreen 0 0 0x0720) = .ok t ∧
      ReservedShown (plainScreen 0 0 0x0720) t 1 [105] := by
  have hinv : (plainScreen 0 0 0x0720).Inv := plainScreen_inv (by decide) (by decide) 0x0720
  have hlen : min [(105 : UInt8)].length 20 = 1 := rfl
  refine (vgaPrintReserved_iff hinv stringOff_i (by decide)).mpr
    ⟨fun i hi hlt => ?_, fun i hlt hge => ?_, fun i hlt hge => ?_, fun i hi hge => ?_⟩
  · omega
  · omega
  · exact (by decide : attributeByte 0x0720 = 0x07)
  · exact .inl (by decide : charByte 0x0720 = 32)

/-- `Hi` in row 1: the first cell gets both characters, the second one as its attribute. -/
theorem vgaPrintReserved_hi :
    ∃ t, vgaPrintReserved hiMem 0x1000 1 (plainScreen 0 0 0x0720) = .ok t ∧
      charByte (t.cell 1 60) = 72 ∧ attributeByte (t.cell 1 60) = 105 ∧
      ¬ReservedShown (plainScreen 0 0 0x0720) t 1 [72, 105] := by
  have hinv : (plainScreen 0 0 0x0720).Inv := plainScreen_inv (by decide) (by decide) 0x0720
  obtain ⟨t, ht, hbytes⟩ := vgaPrintReserved_spec hinv stringOff_hi (by decide : 1 < vgaHeight)
  have hattr : attributeByte (t.cell 1 60) = 105 := (hbytes (1 * vgaWidth + 60) (by decide)).2
  refine ⟨t, ht, (hbytes (1 * vgaWidth + 60) (by decide)).1, hattr, fun h => ?_⟩
  have hcolor := (h.shown 0 (by decide)).2
  rw [hattr] at hcolor
  exact absurd hcolor (by decide)

end Vga

end MoltarOS.Drivers
