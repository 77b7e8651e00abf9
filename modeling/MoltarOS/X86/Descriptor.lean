import MoltarOS.Lib.Table

/-!
# Descriptors

The formats in which the processor reads the eight bytes of a segment descriptor and of an interrupt gate: two
words, low address first, with the bits of base, limit and offset in several places.
-/

namespace MoltarOS.X86

open MoltarOS.Lib MoltarOS.Lib.Word

/-- Bits `lo` up to `lo + w` of a word. -/
def bits (v : UInt32) (lo w : ℕ) : ℕ := v.toNat / 2 ^ lo % 2 ^ w

/-! ### Segments -/

/-- What a segment descriptor says. -/
structure Segment where
  /-- Where the segment begins. -/
  base : UInt32
  /-- Its last offset, in bytes or in pages. -/
  limit : UInt32
  /-- Present, privilege level, kind of segment. -/
  access : UInt8
  /-- Granularity and size. -/
  flags : UInt8
  deriving DecidableEq

/-- A segment descriptor, from its two words. -/
def Segment.ofWords (low high : UInt32) : Segment where
  base := UInt32.ofNat (bits low 16 16 + 2 ^ 16 * bits high 0 8 + 2 ^ 24 * bits high 24 8)
  limit := UInt32.ofNat (bits low 0 16 + 2 ^ 16 * bits high 16 4)
  access := UInt8.ofNat (bits high 8 8)
  flags := UInt8.ofNat (bits high 20 4)

/-- The parts of a segment descriptor, where its words are put together from them. -/
theorem Segment.ofWords_eq {low high : UInt32} {limit₀ limit₁ base₀ base₁ base₂ access flags : ℕ}
    (hlimit₀ : limit₀ < 2 ^ 16)
    (hlimit₁ : limit₁ < 2 ^ 4) (hbase₀ : base₀ < 2 ^ 16) (hbase₁ : base₁ < 2 ^ 8) (hbase₂ : base₂ < 2 ^ 8)
    (haccess : access < 2 ^ 8) (hflags : flags < 2 ^ 4) (hlow : low.toNat = limit₀ + 2 ^ 16 * base₀)
    (hhigh : high.toNat = base₁ + 2 ^ 8 * access + 2 ^ 16 * (limit₁ + 2 ^ 4 * flags) + 2 ^ 24 * base₂) :
    Segment.ofWords low high =
      ⟨UInt32.ofNat (base₀ + 2 ^ 16 * base₁ + 2 ^ 24 * base₂), UInt32.ofNat (limit₀ + 2 ^ 16 * limit₁),
        UInt8.ofNat access, UInt8.ofNat flags⟩ := by
  have hl₀ : bits low 0 16 = limit₀ := by rw [bits]; omega
  have hb₀ : bits low 16 16 = base₀ := by rw [bits]; omega
  have hb₁ : bits high 0 8 = base₁ := by rw [bits]; omega
  have ha : bits high 8 8 = access := by rw [bits]; omega
  have hl₁ : bits high 16 4 = limit₁ := by rw [bits]; omega
  have hf : bits high 20 4 = flags := by rw [bits]; omega
  have hb₂ : bits high 24 8 = base₂ := by rw [bits]; omega
  rw [Segment.ofWords, hl₀, hb₀, hb₁, ha, hl₁, hf, hb₂]

/-- The segment descriptor at an address. -/
def segmentAt (m : Mem) (a : UInt32) : Segment := Segment.ofWords (m.load32 a) (m.load32 (a + 4))

/-- The last offset: the limit counts bytes or, with bit 3 of the flags, pages of 4096 bytes. -/
def Segment.last (s : Segment) : ℕ := if s.flags &&& 0x08 ≠ 0 then s.limit.toNat * 4096 + 4095 else s.limit.toNat

/-- The linear address of an offset, if the segment is present and has it. -/
def Segment.linear (s : Segment) (offset : UInt32) : Option UInt32 :=
  if s.access &&& 0x80 ≠ 0 ∧ offset.toNat ≤ s.last then some (s.base + offset) else none

/-! ### Gates -/

/-- What a gate says. -/
structure Gate where
  /-- The address of the handler. -/
  offset : UInt32
  /-- Its segment. -/
  selector : UInt16
  /-- Present, privilege level, kind of gate. -/
  flags : UInt8
  deriving DecidableEq

/-- A gate, from its two words; the low byte of the second is reserved. -/
def Gate.ofWords (low high : UInt32) : Gate where
  offset := UInt32.ofNat (bits low 0 16 + 2 ^ 16 * bits high 16 16)
  selector := UInt16.ofNat (bits low 16 16)
  flags := UInt8.ofNat (bits high 8 8)

/-- The parts of a gate. -/
theorem Gate.ofWords_eq {low high : UInt32} {offset₀ offset₁ selector reserved flags : ℕ} (hoffset₀ : offset₀ < 2 ^ 16)
    (hoffset₁ : offset₁ < 2 ^ 16) (hselector : selector < 2 ^ 16) (hreserved : reserved < 2 ^ 8)
    (hflags : flags < 2 ^ 8) (hlow : low.toNat = offset₀ + 2 ^ 16 * selector)
    (hhigh : high.toNat = reserved + 2 ^ 8 * flags + 2 ^ 16 * offset₁) :
    Gate.ofWords low high = ⟨UInt32.ofNat (offset₀ + 2 ^ 16 * offset₁), UInt16.ofNat selector, UInt8.ofNat flags⟩ := by
  have ho₀ : bits low 0 16 = offset₀ := by rw [bits]; omega
  have hs : bits low 16 16 = selector := by rw [bits]; omega
  have hf : bits high 8 8 = flags := by rw [bits]; omega
  have ho₁ : bits high 16 16 = offset₁ := by rw [bits]; omega
  rw [Gate.ofWords, ho₀, hs, hf, ho₁]

/-- The gate at an address. -/
def gateAt (m : Mem) (a : UInt32) : Gate := Gate.ofWords (m.load32 a) (m.load32 (a + 4))

/-! ### Their bytes -/

/-- The two words of an entry, by its eight bytes. -/
theorem toNat_words (m : Mem) (a : UInt32) :
    (m.load32 a).toNat = (m (a + 0)).toNat + 2 ^ 8 * (m (a + 1)).toNat + 2 ^ 16 * (m (a + 2)).toNat +
        2 ^ 24 * (m (a + 3)).toNat ∧
      (m.load32 (a + 4)).toNat = (m (a + 4)).toNat + 2 ^ 8 * (m (a + 5)).toNat + 2 ^ 16 * (m (a + 6)).toNat +
        2 ^ 24 * (m (a + 7)).toNat := by
  have hoffset : ∀ k : UInt32, a + 4 + k = a + (4 + k) := fun k => UInt32.add_assoc a 4 k
  refine ⟨?_, ?_⟩
  · rw [Mem.toNat_load32, UInt32.add_zero]
  · rw [Mem.toNat_load32, hoffset 1, hoffset 2, hoffset 3]
    rfl

section Congr

variable {m m' : Mem} {a : UInt32} (h : ∀ x, dist a x < 8 → m x = m' x)

include h

/-- The two words are inside the eight bytes. -/
theorem words_congr : m.load32 a = m'.load32 a ∧ m.load32 (a + 4) = m'.load32 (a + 4) :=
  ⟨Mem.load32_congr fun x hx => h x (by omega), Mem.load32_congr_add (k := 4) (by decide) (by decide) h⟩

theorem segmentAt_congr : segmentAt m a = segmentAt m' a := by
  rw [segmentAt, segmentAt, (words_congr h).1, (words_congr h).2]

theorem gateAt_congr : gateAt m a = gateAt m' a := by
  rw [gateAt, gateAt, (words_congr h).1, (words_congr h).2]

end Congr

/-! ### Tables -/

/-- `gdtr` or `idtr`: where a table is. -/
structure TableRegister where
  /-- The offset of its last byte. -/
  limit : UInt16
  /-- Its first byte. -/
  base : UInt32

/-- `lgdt` or `lidt` with the operand at `p`: the limit, and the base behind it. -/
def loadTable (m : Mem) (p : UInt32) : TableRegister := ⟨m.load16 p, m.load32 (p + 2)⟩

theorem loadTable_congr {m m' : Mem} {p : UInt32} (h : ∀ x, dist p x < 6 → m x = m' x) :
    loadTable m p = loadTable m' p := by
  have h0 := h p (by rw [dist_self]; decide)
  have h1 := h (p + 1) (by rw [dist_add]; decide)
  have h2 : m.load32 (p + 2) = m'.load32 (p + 2) := Mem.load32_congr_add (k := 2) (by decide) (by decide) h
  rw [loadTable, loadTable, Mem.load16, Mem.load16, h0, h1, h2]

/-- Limit and base, stored one after the other. -/
theorem loadTable_store (m : Mem) (p : UInt32) (limit : UInt16) (base : UInt32) :
    loadTable ((m.store16 p limit).store32 (p + 2) base) p = ⟨limit, base⟩ := by
  have hlimit : ((m.store16 p limit).store32 (p + 2) base).load16 p = (m.store16 p limit).load16 p := by
    refine Mem.load16_congr fun x hx => ?_
    have hwrap := dist_add_left_of_lt hx (by decide)
    rw [Mem.store32_apply, if_neg]
    rw [show p + 2 = p + UInt32.ofNat 2 from rfl]
    omega
  rw [loadTable, hlimit, Mem.load16_store16, Mem.load32_store32]

theorem storeTable_outside (m : Mem) (p : UInt32) (limit : UInt16) (base : UInt32) :
    Mem.SameOutside m ((m.store16 p limit).store32 (p + 2) base) p 6 := by
  have h := (Mem.SameOutside.refl m p 6).store16 (k := 0) (by decide) (by decide) limit
  rw [UInt32.add_zero] at h
  exact h.store32 (k := 2) (by decide) (by decide) base

/-- The entries of a table are apart. -/
theorem entry_apart (base : UInt32) {i j x : UInt32} (hi : i.toNat < 2 ^ 29) (hj : j.toNat < 2 ^ 29) (hne : i ≠ j)
    (hx : dist (entryAt base 8 j) x < 8) : 8 ≤ dist (entryAt base 8 i) x := by
  have hsize : (8 : UInt32).toNat = 8 := rfl
  exact entryAt_apart base (by rw [hsize]; omega) (by rw [hsize]; omega) hne hx

/-- What is outside a table is in none of its entries. -/
theorem entry_outside (base : UInt32) {i x : UInt32} {n : ℕ} (hi : i.toNat < n) (hn : n ≤ 2 ^ 29)
    (hx : 8 * n ≤ dist base x) :
    8 ≤ dist (entryAt base 8 i) x := by
  have hsize : (8 : UInt32).toNat = 8 := rfl
  have hin : dist (entryAt base 8 i) x < 8 ↔ _ := dist_entryAt_lt_iff base x (by rw [hsize]; omega)
  rw [hsize] at hin
  omega

/-- The segment that a selector stands for; its low three bits are a privilege level and the choice of a table. -/
def TableRegister.segment (r : TableRegister) (m : Mem) (selector : UInt16) : Option Segment :=
  if selector.toNat / 8 * 8 + 7 ≤ r.limit.toNat
  then some (segmentAt m (entryAt r.base 8 (UInt32.ofNat (selector.toNat / 8))))
  else none

theorem TableRegister.segment_eq {r : TableRegister} (m : Mem) {selector : UInt16} {i : ℕ}
    (hselector : selector.toNat = 8 * i) (hin : 8 * i + 7 ≤ r.limit.toNat) :
    r.segment m selector = some (segmentAt m (entryAt r.base 8 (UInt32.ofNat i))) := by
  have hi : selector.toNat / 8 = i := by omega
  rw [segment, hi, if_pos (by omega)]

/-- The gate of an interrupt. -/
def TableRegister.gate (r : TableRegister) (m : Mem) (n : UInt8) : Option Gate :=
  if n.toNat * 8 + 7 ≤ r.limit.toNat then some (gateAt m (entryAt r.base 8 n.toUInt32)) else none

end MoltarOS.X86
