import MoltarOS.Libc.String
import MoltarOS.X86.Gdt

/-!
# The interrupt descriptor table

`x86/idt.c`: `idt_set_gate` writes the gate of an interrupt, and `idt_init` one for each exception, each of the sixteen
lines and for `yield`.

## What is proved

* `descriptors_faithful` — what the processor reads in an entry of either table is what was set, and the other
  entries stay.
* `idtInit_gate` — the gate that the processor finds for each of the 256 interrupts.
-/

namespace MoltarOS.X86

open MoltarOS.Lib MoltarOS.Lib.Word MoltarOS.Libc

/-! ### The code -/

/-- `IDT_MAX_ENTRIES`. -/
def IDT_MAX_ENTRIES : UInt32 := 256

/-- `CODE_DESCR`. -/
def CODE_DESCR : UInt16 := 0x8

/-- `IDT_FLAGS_GATE_INTERRUPT32`. -/
def IDT_FLAGS_GATE_INTERRUPT32 : UInt8 := 0xE

/-- `IDT_FLAGS_PRIVILEDGE_RING_ZERO`. -/
def IDT_FLAGS_PRIVILEDGE_RING_ZERO : UInt8 := (0 : UInt8) <<< 5

/-- `IDT_FLAGS_PRESENT`. -/
def IDT_FLAGS_PRESENT : UInt8 := (1 : UInt8) <<< 7

/-! Where the fields of `struct idt_entry` are, packed. -/

namespace IdtEntry

/-- `sizeof(struct idt_entry)`. -/
def size : UInt32 := 8

/-- `addr_low`, a halfword. -/
def addrLow : UInt32 := 0

/-- `selector`, a halfword. -/
def selector : UInt32 := 2

/-- `_garbage`. -/
def garbage : UInt32 := 4

/-- `flags`. -/
def flags : UInt32 := 5

/-- `addr_high`, a halfword. -/
def addrHigh : UInt32 := 6

end IdtEntry

/-- `&entries[int_num]`. -/
def idtEntry (entries : UInt32) (intNum : UInt8) : UInt32 := entryAt entries IdtEntry.size intNum.toUInt32

/-- `idt_set_gate`. -/
def idtSetGate (entries : UInt32) (m : Mem) (intNum : UInt8) (addr : UInt32) (selector : UInt16)
    (flags : UInt8) : Mem :=
  let e := idtEntry entries intNum
  let m := m.store16 (e + IdtEntry.addrLow) (addr &&& 0xFFFF).toUInt16
  let m := m.store16 (e + IdtEntry.addrHigh) (addr >>> 16 &&& 0xFFFF).toUInt16
  let m := m.set (e + IdtEntry.garbage) 0
  let m := m.store16 (e + IdtEntry.selector) selector
  m.set (e + IdtEntry.flags) flags

/-! ### An entry -/

section Entry

variable (entries : UInt32) (m : Mem) (intNum : UInt8) (addr : UInt32) (selector : UInt16) (flags : UInt8)

/-- The two words of the entry that was set. -/
theorem idtSetGate_words :
    ((idtSetGate entries m intNum addr selector flags).load32 (idtEntry entries intNum)).toNat =
        addr.toNat % 2 ^ 16 + 2 ^ 16 * selector.toNat ∧
      ((idtSetGate entries m intNum addr selector flags).load32 (idtEntry entries intNum + 4)).toNat =
        0 + 2 ^ 8 * flags.toNat + 2 ^ 16 * (addr.toNat / 2 ^ 16 % 2 ^ 16) := by
  obtain ⟨hlow, hhigh⟩ := toNat_words (idtSetGate entries m intNum addr selector flags) (idtEntry entries intNum)
  rw [hlow, hhigh]
  simp (disch := decide) only [idtSetGate, Mem.store16_add, IdtEntry.addrLow, IdtEntry.selector, IdtEntry.garbage,
    IdtEntry.flags, IdtEntry.addrHigh, UInt32.reduceAdd, Mem.set_add_self, Mem.set_add_of_ne]
  constructor
  · have haddr := toNat_halfword (addr &&& 0xFFFF).toUInt16
    have hselector := toNat_halfword selector
    rw [toNat_low16] at haddr
    omega
  · have haddr := toNat_halfword (addr >>> 16 &&& 0xFFFF).toUInt16
    have hshift : (addr >>> 16).toNat = addr.toNat / 2 ^ 16 := toNat_shiftRight_of_lt addr (by decide)
    have hgarbage : (0 : UInt8).toNat = 0 := rfl
    rw [toNat_low16, hshift] at haddr
    omega

/-- What the processor reads in it. -/
theorem gateAt_idtSetGate :
    gateAt (idtSetGate entries m intNum addr selector flags) (idtEntry entries intNum) = ⟨addr, selector, flags⟩ := by
  obtain ⟨hlow, hhigh⟩ := idtSetGate_words entries m intNum addr selector flags
  have haddr := addr.toNat_lt
  rw [gateAt, Gate.ofWords_eq (by omega) (by omega) selector.toNat_lt (by decide) flags.toNat_lt hlow hhigh,
    Gate.mk.injEq]
  refine ⟨UInt32.toNat_inj.mp ?_, UInt16.ofNat_toNat, UInt8.ofNat_toNat⟩
  rw [UInt32.toNat_ofNat']
  omega

/-- Nothing but the eight bytes of the entry is written. -/
theorem idtSetGate_outside : Mem.SameOutside m (idtSetGate entries m intNum addr selector flags)
    (idtEntry entries intNum) 8 := by
  have h := Mem.SameOutside.refl m (idtEntry entries intNum) 8
  have h := h.store16 (k := IdtEntry.addrLow) (by decide) (by decide) (addr &&& 0xFFFF).toUInt16
  have h := h.store16 (k := IdtEntry.addrHigh) (by decide) (by decide) (addr >>> 16 &&& 0xFFFF).toUInt16
  have h := h.set (k := IdtEntry.garbage) (by decide) 0
  have h := h.store16 (k := IdtEntry.selector) (by decide) (by decide) selector
  exact h.set (by decide) flags

end Entry

/-! ### The table -/

theorem toNat_intNum_lt (n : UInt8) : n.toUInt32.toNat < 256 := by
  rw [UInt8.toNat_toUInt32]
  exact n.toNat_lt

/-- The table at `entries`. -/
def idtTable (entries : UInt32) : Table UInt8 Gate Gate where
  place n := idtEntry entries n
  size := 8
  write m n d := idtSetGate entries m n d.offset d.selector d.flags
  read := gateAt
  means := id
  apart := by
    intro i j x hne hx
    have hi := toNat_intNum_lt i
    have hj := toNat_intNum_lt j
    have hnum : i.toUInt32 ≠ j.toUInt32 := mt UInt8.toUInt32_inj.mp hne
    exact entry_apart entries (by omega) (by omega) hnum hx
  outside m n d := idtSetGate_outside entries m n d.offset d.selector d.flags
  read_congr := gateAt_congr
  read_write m n d := gateAt_idtSetGate entries m n d.offset d.selector d.flags

/-- **Descriptors.** In an entry of either table the processor reads what was set, bit 4 of the access byte of a
segment being always set and bit 1 of its flags always clear, and the bytes of the other entries are what they were. -/
theorem descriptors_faithful (m : Mem) (gdt idt : UInt32) (idx : GdtIndex) (base limit : UInt32) (access flags : UInt8)
    (hlimit : limit.toNat < 2 ^ 20) (hflags : flags.toNat < 2 ^ 4) (intNum : UInt8) (addr : UInt32) (selector : UInt16)
    (gateFlags : UInt8) :
    (segmentAt (gdtSetGate gdt m idx.idx base limit access flags) (gdtEntry gdt idx.idx) =
          ⟨base, limit, access ||| 0x10, flags &&& ~~~0x02⟩ ∧
        ∀ j ≠ idx, ∀ x, dist (gdtEntry gdt j.idx) x < 8 → gdtSetGate gdt m idx.idx base limit access flags x = m x) ∧
      gateAt (idtSetGate idt m intNum addr selector gateFlags) (idtEntry idt intNum) = ⟨addr, selector, gateFlags⟩ ∧
        ∀ n ≠ intNum, ∀ x, dist (idtEntry idt n) x < 8 → idtSetGate idt m intNum addr selector gateFlags x = m x := by
  refine ⟨⟨?_, fun j hj x hx => ?_⟩, gateAt_idtSetGate idt m intNum addr selector gateFlags, fun n hn x hx => ?_⟩
  · have hlimit' : limit &&& 0xFFFFF = limit := by
      rw [← UInt32.toNat_inj, toNat_and_mask limit (w := 20) rfl, Nat.mod_eq_of_lt hlimit]
    rw [segmentAt_gdtSetGate, hlimit', flags_and_of_lt hflags]
  · exact gdtSetGate_outside gdt m idx.idx base limit access flags x ((gdtTable gdt).apart hj.symm hx)
  · exact idtSetGate_outside idt m intNum addr selector gateFlags x ((idtTable idt).apart hn.symm hx)

/-- A base, a limit and an address with something in each of their parts, in memory that is not blank. -/
theorem descriptors_faithful_scattered :
    segmentAt (gdtSetGate 0x1000 (fun _ => 0xFF) 1 0x12345678 0xABCDE 0x8A 0x0E) 0x1008 =
      ⟨0x12345678, 0xABCDE, 0x9A, 0x0C⟩ ∧
      gateAt (idtSetGate 0x2000 (fun _ => 0xFF) 33 0xC0123456 0x08 0x8E) 0x2108 = ⟨0xC0123456, 0x08, 0x8E⟩ := by
  have h := descriptors_faithful (fun _ => 0xFF) 0x1000 0x2000 gdtCode.1 0x12345678 0xABCDE 0x8A 0x0E
    (by decide) (by decide)
    33 0xC0123456 0x08 0x8E
  exact ⟨h.1.1, h.2.1⟩

/-! ### Setting up -/

/-- Where the linker puts `entries`, `ptr` and `handlers`. -/
structure IdtStatics where
  /-- `entries`. -/
  entries : UInt32
  /-- `ptr`. -/
  ptr : UInt32
  /-- `handlers`. -/
  handlers : UInt32
  /-- `entries` and `ptr` do not overlap. -/
  apart : ∀ x, dist ptr x < 6 → 2048 ≤ dist entries x

section Init

variable (s : IdtStatics) (interruptServiceRequest interruptRequest : ℕ → UInt32) (m : Mem)

/-- `init_isr`: the gates of the exceptions, and of `yield`. -/
def initIsr : Mem :=
  let isrFlags := IDT_FLAGS_GATE_INTERRUPT32 ||| IDT_FLAGS_PRIVILEDGE_RING_ZERO ||| IDT_FLAGS_PRESENT
  (List.range 32 ++ [255]).foldl
    (fun m n => idtSetGate s.entries m (UInt8.ofNat n) (interruptServiceRequest n) CODE_DESCR isrFlags) m

/-- `init_irq`: the gates of the sixteen lines. -/
def initIrq : Mem :=
  let irqFlags := IDT_FLAGS_GATE_INTERRUPT32 ||| IDT_FLAGS_PRIVILEDGE_RING_ZERO ||| IDT_FLAGS_PRESENT
  (List.range 16).foldl (fun m n => idtSetGate s.entries m (UInt8.ofNat (32 + n)) (interruptRequest n)
    CODE_DESCR irqFlags) m

/-- `idt_init`, what it writes to memory up to `idt_flush`. -/
def idtInit : Mem :=
  let m := memset m s.handlers 0 (4 * IDT_MAX_ENTRIES)
  let m := memset m s.entries 0 (IdtEntry.size * IDT_MAX_ENTRIES)
  let m := m.store16 s.ptr (IdtEntry.size * IDT_MAX_ENTRIES - 1).toUInt16
  let m := m.store32 (s.ptr + 2) s.entries
  let m := initIsr s interruptServiceRequest m
  initIrq s interruptRequest m

/-- The gate that interrupt `n` gets: a present 32-bit interrupt gate, which masks interrupts, or none. -/
def gateOf (n : UInt8) : Gate :=
  if n.toNat < 32 ∨ n.toNat = 255 then ⟨interruptServiceRequest n.toNat, CODE_DESCR, 0x8E⟩
  else if n.toNat < 48 then ⟨interruptRequest (n.toNat - 32), CODE_DESCR, 0x8E⟩
  else ⟨0, 0, 0⟩

theorem gateOf_isr {n : ℕ} (h : n ∈ List.range 32 ++ [255]) :
    gateOf interruptServiceRequest interruptRequest (UInt8.ofNat n) =
      ⟨interruptServiceRequest n, CODE_DESCR, 0x8E⟩ := by
  have hn : n < 32 ∨ n = 255 := by simpa using h
  have hnum : (UInt8.ofNat n).toNat = n := UInt8.toNat_ofNat_of_lt' (by show n < 256; omega)
  rw [gateOf, hnum, if_pos hn]

theorem gateOf_irq {n : ℕ} (h : n ∈ List.range 16) :
    gateOf interruptServiceRequest interruptRequest (UInt8.ofNat (32 + n)) =
      ⟨interruptRequest n, CODE_DESCR, 0x8E⟩ := by
  have hn : n < 16 := List.mem_range.mp h
  have hnum : (UInt8.ofNat (32 + n)).toNat = 32 + n := UInt8.toNat_ofNat_of_lt' (by show 32 + n < 256; omega)
  rw [gateOf, hnum, if_neg (by omega), if_pos (by omega), Nat.add_sub_cancel_left]

/-- The numbers that get a gate. -/
def gateNumbers : List UInt8 := (List.range 32 ++ [255]).map UInt8.ofNat ++ (List.range 16).map fun n =>
    UInt8.ofNat (32 + n)

theorem mem_gateNumbers {n : UInt8} (h : n.toNat < 48 ∨ n.toNat = 255) : n ∈ gateNumbers := by
  have hnum : UInt8.ofNat n.toNat = n := UInt8.ofNat_toNat
  rw [gateNumbers, List.mem_append, List.mem_map, List.mem_map]
  by_cases hirq : 32 ≤ n.toNat ∧ n.toNat < 48
  · exact .inr ⟨n.toNat - 32, List.mem_range.mpr (by omega), by rw [Nat.add_sub_cancel' hirq.1, hnum]⟩
  · have hisr : n.toNat < 32 ∨ n.toNat = 255 := by omega
    exact .inl ⟨n.toNat, by simpa using hisr, hnum⟩

theorem gateOf_of_not_mem {n : UInt8} (h : n ∉ gateNumbers) :
    gateOf interruptServiceRequest interruptRequest n = ⟨0, 0, 0⟩ := by
  have hnone : ¬ (n.toNat < 48 ∨ n.toNat = 255) := mt mem_gateNumbers h
  rw [gateOf, if_neg (by omega), if_neg (by omega)]

/-- The memory before the gates. -/
def idtCleared : Mem :=
  ((memset (memset m s.handlers 0 1024) s.entries 0 2048).store16 s.ptr 2047).store32 (s.ptr + 2) s.entries

/-- The gates are written one after the other, each once. -/
theorem idtInit_eq :
    idtInit s interruptServiceRequest interruptRequest m =
      (idtTable s.entries).writes (idtCleared s m)
        (gateNumbers.map fun n => (n, gateOf interruptServiceRequest interruptRequest n)) := by
  rw [gateNumbers, List.map_append, Table.writes_append,
    ← Table.foldl_write _ _ fun n hn => (gateOf_isr interruptServiceRequest interruptRequest hn).symm,
    ← Table.foldl_write _ _ fun n hn => (gateOf_irq interruptServiceRequest interruptRequest hn).symm]
  rfl

/-- What `idt_flush` loads. -/
theorem idtInit_loaded : loadTable (idtInit s interruptServiceRequest interruptRequest m) s.ptr =
    ⟨2047, s.entries⟩ := by
  rw [← loadTable_store (memset (memset m s.handlers 0 1024) s.entries 0 2048) s.ptr 2047 s.entries,
    idtInit_eq, idtCleared]
  refine loadTable_congr fun x hx => (idtTable s.entries).writes_outside _ _ fun n => ?_
  exact entry_outside s.entries (toNat_intNum_lt n) (by decide) (s.apart x hx)

/-- The entries are cleared. -/
theorem idtCleared_entry (n : UInt8) : gateAt (idtCleared s m) (idtEntry s.entries n) = ⟨0, 0, 0⟩ := by
  have hblank : gateAt (fun _ => 0) (idtEntry s.entries n) = ⟨0, 0, 0⟩ := by
    simp [gateAt, Gate.ofWords, bits, Mem.load32]
  rw [← hblank]
  refine gateAt_congr fun x hx => ?_
  have hin : dist s.entries x < (2048 : UInt32).toNat := by
    by_contra hout
    exact absurd hx (not_lt.mpr (entry_outside s.entries (toNat_intNum_lt n) (by decide) (not_lt.mp hout)))
  have hptr : 6 ≤ dist s.ptr x := by
    by_contra hlt
    exact absurd hin (not_lt.mpr (s.apart x (not_le.mp hlt)))
  rw [idtCleared, storeTable_outside _ s.ptr 2047 s.entries x hptr, memset_apply, if_pos hin]

/-- **Every interrupt.** Whatever was in memory, the processor finds for each interrupt the gate with the address of
its own handler in the code segment; there is none for the numbers from 48 to 254. -/
theorem idtInit_gate (n : UInt8) :
    (loadTable (idtInit s interruptServiceRequest interruptRequest m) s.ptr).gate
        (idtInit s interruptServiceRequest interruptRequest m) n =
      some (gateOf interruptServiceRequest interruptRequest n) := by
  have hn := n.toNat_lt
  have hlimit : (2047 : UInt16).toNat = 2047 := rfl
  rw [idtInit_loaded, TableRegister.gate, if_pos (by rw [hlimit]; omega), idtInit_eq]
  refine congrArg some ?_
  by_cases hmem : n ∈ gateNumbers
  · refine (idtTable s.entries).read_writes_of_nodup _ ?_ (List.mem_map_of_mem hmem)
    have hfst : Prod.fst ∘ (fun n => (n, gateOf interruptServiceRequest interruptRequest n)) = id := rfl
    rw [List.map_map, hfst, List.map_id]
    decide
  · refine ((idtTable s.entries).read_writes_of_not_mem _ fun w hw he => ?_).trans ?_
    · obtain ⟨k, hk, rfl⟩ := List.mem_map.mp hw
      exact hmem (he ▸ hk)
    · rw [gateOf_of_not_mem _ _ hmem]
      exact idtCleared_entry s m n

end Init

end MoltarOS.X86
