import Mathlib.Data.FinEnum
import MoltarOS.X86.Descriptor

/-!
# The global descriptor table

`x86/gdt.c`: `gdt_set_gate` scatters base, limit, access and flags over the fields of an entry, and `gdt_init` sets the
three entries that the kernel has.

## What is proved

* `segmentAt_gdtSetGate` — what the processor reads in the entry.
* `gdtInit_flat` — after `gdt_init` every offset in the code and the data segment is its own linear address.
-/

namespace MoltarOS.X86

open MoltarOS.Lib MoltarOS.Lib.Word

/-! ### The code -/

/-- `GDT_MAX_ENTRIES`. -/
def GDT_MAX_ENTRIES : Int32 := 3

/-- `GDT_ACCESS_GARBAGE`. -/
def GDT_ACCESS_GARBAGE : UInt8 := (1 : UInt8) <<< 4

/-- `GDT_FLAGS_GARBAGE`. -/
def GDT_FLAGS_GARBAGE : UInt8 := (2 : UInt8) <<< 0

/-- `GDT_DESCRIPTOR_NULL`. -/
def GDT_DESCRIPTOR_NULL : Int32 := 0

/-- `GDT_DESCRIPTOR_CODE`. -/
def GDT_DESCRIPTOR_CODE : Int32 := 1

/-- `GDT_DESCRIPTOR_DATA`. -/
def GDT_DESCRIPTOR_DATA : Int32 := 2

/-- `GDT_ADDRESS_MIN`. -/
def GDT_ADDRESS_MIN : UInt32 := 0

/-- `GDT_ADDRESS_MAX`. -/
def GDT_ADDRESS_MAX : UInt32 := 0xFFFFF

/-- `GDT_ACCESS_NONE`. -/
def GDT_ACCESS_NONE : UInt8 := 0

/-- `GDT_ACCESS_RW`. -/
def GDT_ACCESS_RW : UInt8 := (1 : UInt8) <<< 1

/-- `GDT_ACCESS_EXECUTABLE`. -/
def GDT_ACCESS_EXECUTABLE : UInt8 := (1 : UInt8) <<< 3

/-- `GDT_ACCESS_PRIVILEDGE_RING_ZERO`. -/
def GDT_ACCESS_PRIVILEDGE_RING_ZERO : UInt8 := (0 : UInt8) <<< 5

/-- `GDT_ACCESS_PRESENT`. -/
def GDT_ACCESS_PRESENT : UInt8 := (1 : UInt8) <<< 7

/-- `GDT_FLAGS_NONE`. -/
def GDT_FLAGS_NONE : UInt8 := 0

/-- `GDT_FLAGS_SIZE`. -/
def GDT_FLAGS_SIZE : UInt8 := (1 : UInt8) <<< 2

/-- `GDT_FLAGS_GRANULARITY`. -/
def GDT_FLAGS_GRANULARITY : UInt8 := (1 : UInt8) <<< 3

/-! Where the fields of `struct gdt_entry` are, packed: in bytes from its address, and for the two bit fields, which
share a byte, in bits from the low end of it. -/

namespace GdtEntry

/-- `sizeof(struct gdt_entry)`. -/
def size : UInt32 := 8

/-- `limit_low`, a halfword. -/
def limitLow : UInt32 := 0

/-- `base_low`, a halfword. -/
def baseLow : UInt32 := 2

/-- `base_mid`. -/
def baseMid : UInt32 := 4

/-- `access`. -/
def access : UInt32 := 5

/-- The byte of `limit_high : 4` and `flags : 4`. -/
def bitFields : UInt32 := 6

/-- The lowest bit of `limit_high`. -/
def limitHigh : ℕ := 0

/-- The lowest bit of `flags`. -/
def flags : ℕ := 4

/-- `base_high`. -/
def baseHigh : UInt32 := 7

end GdtEntry

/-- `&entries[idx]`. -/
def gdtEntry (entries : UInt32) (idx : Int32) : UInt32 := entryAt entries GdtEntry.size idx.toUInt32

/-- `gdt_set_gate`. -/
def gdtSetGate (entries : UInt32) (m : Mem) (idx : Int32) (base limit : UInt32) (access flags : UInt8) : Mem :=
  let access := access ||| GDT_ACCESS_GARBAGE
  let flags := flags &&& ~~~GDT_FLAGS_GARBAGE
  let e := gdtEntry entries idx
  let m := m.store16 (e + GdtEntry.baseLow) (base &&& 0xFFFF).toUInt16
  let m := m.set (e + GdtEntry.baseMid) (base >>> 16 &&& 0xFF).toUInt8
  let m := m.set (e + GdtEntry.baseHigh) (base >>> 24 &&& 0xFF).toUInt8
  let m := m.store16 (e + GdtEntry.limitLow) (limit &&& 0xFFFF).toUInt16
  let m := m.storeBits (e + GdtEntry.bitFields) GdtEntry.limitHigh 4 (limit >>> 16 &&& 0x0F)
  -- a byte, of which the bit field takes the low half
  let m := m.storeBits (e + GdtEntry.bitFields) GdtEntry.flags 4 flags.toUInt32
  m.set (e + GdtEntry.access) access

/-! ### An entry -/

/-- The flags as a field of four bits. -/
theorem toNat_flags_mod (flags : UInt8) :
    (flags &&& ~~~GDT_FLAGS_GARBAGE).toNat % 2 ^ 4 = (flags &&& 0x0D).toNat ∧ (flags &&& 0x0D).toNat < 2 ^ 4 := by
  revert flags
  decide +kernel

/-- Of four bits, bit 1 is all that goes. -/
theorem flags_and_of_lt {flags : UInt8} (h : flags.toNat < 2 ^ 4) : flags &&& 0x0D = flags &&& ~~~0x02 := by
  revert flags
  decide +kernel

section Entry

variable (entries : UInt32) (m : Mem) (idx : Int32) (base limit : UInt32) (access flags : UInt8)

/-- The two words of the entry that was set. -/
theorem gdtSetGate_words :
    ((gdtSetGate entries m idx base limit access flags).load32 (gdtEntry entries idx)).toNat =
        limit.toNat % 2 ^ 16 + 2 ^ 16 * (base.toNat % 2 ^ 16) ∧
      ((gdtSetGate entries m idx base limit access flags).load32 (gdtEntry entries idx + 4)).toNat =
        base.toNat / 2 ^ 16 % 2 ^ 8 + 2 ^ 8 * (access ||| GDT_ACCESS_GARBAGE).toNat +
          2 ^ 16 * (limit.toNat / 2 ^ 16 % 2 ^ 4 + 2 ^ 4 * ((flags &&& ~~~GDT_FLAGS_GARBAGE).toNat % 2 ^ 4)) +
          2 ^ 24 * (base.toNat / 2 ^ 24 % 2 ^ 8) := by
  obtain ⟨hlow, hhigh⟩ := toNat_words (gdtSetGate entries m idx base limit access flags) (gdtEntry entries idx)
  rw [hlow, hhigh]
  simp (disch := decide) only [gdtSetGate, Mem.store16_add, Mem.storeBits, GdtEntry.limitLow, GdtEntry.baseLow,
    GdtEntry.baseMid, GdtEntry.access, GdtEntry.bitFields, GdtEntry.limitHigh, GdtEntry.flags, GdtEntry.baseHigh,
    UInt32.reduceAdd,
    Mem.set_add_self, Mem.set_add_of_ne]
  constructor
  · have hlimit := toNat_halfword (limit &&& 0xFFFF).toUInt16
    have hbase := toNat_halfword (base &&& 0xFFFF).toUInt16
    rw [toNat_low16] at hlimit hbase
    omega
  · have hlimit : (limit >>> 16 &&& 0x0F).toNat = limit.toNat / 2 ^ 16 % 2 ^ 4 := by
      rw [toNat_and_mask _ (w := 4) rfl, toNat_shiftRight_of_lt _ (by decide)]
      rfl
    rw [toNat_low8, toNat_low8, Mem.insertBits_halves, hlimit, Nat.mod_mod, UInt8.toNat_toUInt32,
      toNat_shiftRight_of_lt _ (by decide), toNat_shiftRight_of_lt _ (by decide)]
    rfl

/-- What the processor reads in it: of the limit 20 bits, and of the flags the four but for bit 1. -/
theorem segmentAt_gdtSetGate :
    segmentAt (gdtSetGate entries m idx base limit access flags) (gdtEntry entries idx) =
      ⟨base, limit &&& 0xFFFFF, access ||| 0x10, flags &&& 0x0D⟩ := by
  obtain ⟨hlow, hhigh⟩ := gdtSetGate_words entries m idx base limit access flags
  have hbase := base.toNat_lt
  have haccess := (access ||| GDT_ACCESS_GARBAGE).toNat_lt
  obtain ⟨hflags, hflags_lt⟩ := toNat_flags_mod flags
  rw [hflags] at hhigh
  rw [segmentAt, Segment.ofWords_eq (by omega) (by omega) (by omega) (by omega) (by omega) haccess hflags_lt hlow hhigh,
    Segment.mk.injEq]
  refine ⟨UInt32.toNat_inj.mp ?_, UInt32.toNat_inj.mp ?_, UInt8.ofNat_toNat, UInt8.ofNat_toNat⟩
  · rw [UInt32.toNat_ofNat']
    omega
  · rw [UInt32.toNat_ofNat', toNat_and_mask limit (w := 20) rfl]
    omega

/-- Nothing but the eight bytes of the entry is written. -/
theorem gdtSetGate_outside :
    Mem.SameOutside m (gdtSetGate entries m idx base limit access flags) (gdtEntry entries idx) 8 := by
  have h := Mem.SameOutside.refl m (gdtEntry entries idx) 8
  have h := h.store16 (k := GdtEntry.baseLow) (by decide) (by decide) (base &&& 0xFFFF).toUInt16
  have h := h.set (k := GdtEntry.baseMid) (by decide) (base >>> 16 &&& 0xFF).toUInt8
  have h := h.set (k := GdtEntry.baseHigh) (by decide) (base >>> 24 &&& 0xFF).toUInt8
  have h := h.store16 (k := GdtEntry.limitLow) (by decide) (by decide) (limit &&& 0xFFFF).toUInt16
  have h := h.storeBits (k := GdtEntry.bitFields) (by decide) GdtEntry.limitHigh 4 (limit >>> 16 &&& 0x0F)
  have h := h.storeBits (k := GdtEntry.bitFields) (by decide) GdtEntry.flags 4 (flags &&& ~~~GDT_FLAGS_GARBAGE).toUInt32
  exact h.set (by decide) (access ||| GDT_ACCESS_GARBAGE)

end Entry

/-! ### The table -/

/-- An index of the table. -/
structure GdtIndex where
  /-- The index. -/
  idx : Int32
  /-- It is not negative. -/
  nonneg : 0 ≤ idx
  /-- It is below the number of entries. -/
  lt : idx < GDT_MAX_ENTRIES
  deriving DecidableEq

/-- The three of them. -/
theorem GdtIndex.cases (i : GdtIndex) : i.idx = 0 ∨ i.idx = 1 ∨ i.idx = 2 := by
  have hnonneg : 0 ≤ i.idx.toInt := Int32.le_iff_toInt_le.mp i.nonneg
  have hlt : i.idx.toInt < 3 := Int32.lt_iff_toInt_lt.mp i.lt
  have hdec : i.idx.toInt = 0 ∨ i.idx.toInt = 1 ∨ i.idx.toInt = 2 := by omega
  exact hdec.imp (fun h => Int32.toInt_inj.mp h) (Or.imp (fun h => Int32.toInt_inj.mp h) fun h => Int32.toInt_inj.mp h)

theorem GdtIndex.toNat_lt (i : GdtIndex) : i.idx.toUInt32.toNat < 3 := by
  rcases i.cases with h | h | h <;> rw [h] <;> decide

/-- What the processor reads where a segment was set. -/
def Segment.settled (d : Segment) : Segment := ⟨d.base, d.limit &&& 0xFFFFF, d.access ||| 0x10, d.flags &&& 0x0D⟩

/-- The table at `entries`. -/
def gdtTable (entries : UInt32) : Table GdtIndex Segment Segment where
  place i := gdtEntry entries i.idx
  size := 8
  write m i d := gdtSetGate entries m i.idx d.base d.limit d.access d.flags
  read := segmentAt
  means := Segment.settled
  apart := by
    intro i j x hne hx
    have hi := i.toNat_lt
    have hj := j.toNat_lt
    have hidx : i.idx.toUInt32 ≠ j.idx.toUInt32 := fun h => hne <| by
      cases i
      cases j
      simp only [GdtIndex.mk.injEq]
      exact congrArg Int32.ofUInt32 h
    exact entry_apart entries (by omega) (by omega) hidx hx
  outside m i d := gdtSetGate_outside entries m i.idx d.base d.limit d.access d.flags
  read_congr := segmentAt_congr
  read_write m i d := segmentAt_gdtSetGate entries m i.idx d.base d.limit d.access d.flags

/-! ### Setting up -/

/-- Where the linker puts `entries` and `ptr`. -/
structure GdtStatics where
  /-- `entries`. -/
  entries : UInt32
  /-- `ptr`. -/
  ptr : UInt32
  /-- They do not overlap. -/
  apart : ∀ x, dist ptr x < 6 → 24 ≤ dist entries x

/-- `gdt_init`, up to `gdt_flush`. -/
def gdtInit (s : GdtStatics) (m : Mem) : Mem :=
  let m := m.store16 s.ptr (GdtEntry.size * GDT_MAX_ENTRIES.toUInt32 - 1).toUInt16
  -- `ptr.base`, packed behind the two bytes of `ptr.limit`
  let m := m.store32 (s.ptr + 2) s.entries
  let m := gdtSetGate s.entries m GDT_DESCRIPTOR_NULL GDT_ADDRESS_MIN GDT_ADDRESS_MIN GDT_ACCESS_NONE GDT_FLAGS_NONE
  let m := gdtSetGate s.entries m GDT_DESCRIPTOR_CODE GDT_ADDRESS_MIN GDT_ADDRESS_MAX
    (GDT_ACCESS_RW ||| GDT_ACCESS_EXECUTABLE ||| GDT_ACCESS_PRIVILEDGE_RING_ZERO ||| GDT_ACCESS_PRESENT)
    (GDT_FLAGS_SIZE ||| GDT_FLAGS_GRANULARITY)
  gdtSetGate s.entries m GDT_DESCRIPTOR_DATA GDT_ADDRESS_MIN GDT_ADDRESS_MAX
    (GDT_ACCESS_RW ||| GDT_ACCESS_PRIVILEDGE_RING_ZERO ||| GDT_ACCESS_PRESENT)
    (GDT_FLAGS_SIZE ||| GDT_FLAGS_GRANULARITY)

/-- The null descriptor, as it is set. -/
def gdtNull : GdtIndex × Segment := (⟨GDT_DESCRIPTOR_NULL, by decide, by decide⟩, ⟨0, 0, 0, 0⟩)

/-- The code segment. -/
def gdtCode : GdtIndex × Segment := (⟨GDT_DESCRIPTOR_CODE, by decide, by decide⟩, ⟨0, 0xFFFFF, 0x8A, 0x0C⟩)

/-- The data segment. -/
def gdtData : GdtIndex × Segment := (⟨GDT_DESCRIPTOR_DATA, by decide, by decide⟩, ⟨0, 0xFFFFF, 0x82, 0x0C⟩)

theorem gdtInit_eq (s : GdtStatics) (m : Mem) :
    gdtInit s m =
      (gdtTable s.entries).writes ((m.store16 s.ptr 23).store32 (s.ptr + 2) s.entries)
        [gdtNull, gdtCode, gdtData] := rfl

/-- What `gdt_flush` loads. -/
theorem gdtInit_loaded (s : GdtStatics) (m : Mem) : loadTable (gdtInit s m) s.ptr = ⟨23, s.entries⟩ := by
  rw [← loadTable_store m s.ptr 23 s.entries, gdtInit_eq]
  refine loadTable_congr fun x hx => (gdtTable s.entries).writes_outside _ _ fun i => ?_
  exact entry_outside s.entries i.toNat_lt (by decide) (s.apart x hx)

/-- The segment that a selector then stands for. -/
theorem gdtInit_segment (s : GdtStatics) (m : Mem) {w : GdtIndex × Segment} (hw : w ∈ [gdtNull, gdtCode, gdtData])
    {selector : UInt16} (hselector : selector.toNat = 8 * w.1.idx.toUInt32.toNat) :
    (loadTable (gdtInit s m) s.ptr).segment (gdtInit s m) selector = some w.2.settled := by
  have hidx := w.1.toNat_lt
  have hlimit : (23 : UInt16).toNat = 23 := rfl
  rw [gdtInit_loaded, TableRegister.segment_eq _ hselector (by rw [hlimit]; omega), UInt32.ofNat_toNat, gdtInit_eq]
  exact congrArg some ((gdtTable s.entries).read_writes_of_nodup _ (by decide) hw)

/-- A flat segment. -/
theorem Segment.linear_of_flat {d : Segment} (hpresent : d.access &&& 0x80 ≠ 0) (hbase : d.base = 0)
    (hlast : d.last = 2 ^ 32 - 1) (offset : UInt32) : d.linear offset = some offset := by
  have hlt := offset.toNat_lt
  rw [Segment.linear, if_pos ⟨hpresent, by omega⟩, hbase, UInt32.zero_add]

/-- **Flat memory.** The selectors that `gdt_flush` loads stand for segments in which every offset is its own linear
address. -/
theorem gdtInit_flat (s : GdtStatics) (m : Mem) {selector : UInt16} (h : selector = 0x08 ∨ selector = 0x10) :
    ∃ d, (loadTable (gdtInit s m) s.ptr).segment (gdtInit s m) selector = some d ∧
      ∀ offset, d.linear offset = some offset := by
  rcases h with rfl | rfl
  · exact ⟨_, gdtInit_segment s m (w := gdtCode) (by decide) rfl,
      Segment.linear_of_flat (by decide) (by decide) (by decide)⟩
  · exact ⟨_, gdtInit_segment s m (w := gdtData) (by decide) rfl,
      Segment.linear_of_flat (by decide) (by decide) (by decide)⟩

end MoltarOS.X86
