import MoltarOS.Lib.Trace
import MoltarOS.Mm.Heap

/-!
# What the heap evaluates

The functions of `mm/heap.c` once more, each 32-bit operation and each entry of a bitmap that is read being reported.
The tests of a condition are evaluated from left to right, as far as `&&` goes.

## What is proved

* `value_memheapAlloc`, `value_memheapFree`, `value_memheapAddBlock` — these are the functions of `Heap`.
-/

namespace MoltarOS.Mm

open MoltarOS.Lib MoltarOS.Lib.Word MoltarOS.Libc Reports

/-! ### Events -/

/-- What is evaluated. -/
inductive HeapEvent where
  /-- `x + y`. -/
  | add (x y : UInt32)
  /-- `x - y`. -/
  | sub (x y : UInt32)
  /-- `x * y`. -/
  | mul (x y : UInt32)
  /-- `bitmap[idx]`, of a superblock with so many blocks. -/
  | read (idx blockCount : UInt32)

namespace HeapEvent

/-- The operation does not wrap. -/
def Exact : HeapEvent → Prop
  | .add x y => x.toNat + y.toNat < 2 ^ 32
  | .sub x y => y.toNat ≤ x.toNat
  | .mul x y => x.toNat * y.toNat < 2 ^ 32
  | .read _ _ => True

/-- The entry is one of the superblock. -/
def InRange : HeapEvent → Prop
  | .read idx blockCount => idx.toNat < blockCount.toNat
  | _ => True

instance : DecidablePred InRange
  | .read idx blockCount => inferInstanceAs (Decidable (idx.toNat < blockCount.toNat))
  | .add _ _ | .sub _ _ | .mul _ _ => isTrue trivial

end HeapEvent

/-- What is evaluated on the way to a value. -/
abbrev Traced (α : Type) := Reports HeapEvent α

/-! ### The code -/

namespace Traced

/-- `x + y`. -/
def add (x y : UInt32) : Traced UInt32 := do
  report (.add x y)
  return x + y

/-- `x - y`. -/
def sub (x y : UInt32) : Traced UInt32 := do
  report (.sub x y)
  return x - y

/-- `x * y`. -/
def mul (x y : UInt32) : Traced UInt32 := do
  report (.mul x y)
  return x * y

/-- `CEILING(x, y)`. -/
def CEILING (x y : UInt32) : Traced UInt32 := do
  let sum ← add x y
  let sum ← sub sum 1
  return sum / y

/-- `&sblock[1]`. -/
def memblockGetBitmap (sblock : Memblock) : Traced UInt32 := add sblock.addr sizeofMemblock

/-- `bitmap[idx]`. -/
def readEntry (m : Mem) (bitmap blockCount idx : UInt32) : Traced UInt8 := do
  let a ← add bitmap idx
  report (.read idx blockCount)
  return m a

/-- `memheap_add_block(heap, addr, size, block_size)`. -/
def memheapAddBlock (m : Mem) (heap : MemHeap) (addr size blockSize : UInt32) : Traced (Mem × MemHeap) := do
  let totalSize ← sub size sizeofMemblock
  let sblock : Memblock := { addr := addr, totalSize := totalSize, used := 0, blockSize := blockSize }
  let blockCount := sblock.totalSize / sblock.blockSize
  let bitmap ← memblockGetBitmap sblock
  let m := memset m bitmap FREE blockCount
  let blockCount ← CEILING blockCount blockSize
  let m := memset m bitmap 1 blockCount
  let sblock := { sblock with used := blockCount }
  return (m, if addr = 0 then [] else sblock :: heap)

/-- `for (; bitmap[i + n] == FREE && n < blocks_needed && (i + n) < block_count; n++);` -/
def freeRun (m : Mem) (bitmap i blocksNeeded blockCount : UInt32) : ℕ → UInt32 → Traced UInt32
  | 0, n => return n
  | fuel + 1, n => do
    let idx ← add i n
    let c ← readEntry m bitmap blockCount idx
    if c = FREE ∧ n < blocksNeeded then
      let idx ← add i n
      if idx < blockCount then
        let n ← add n 1
        freeRun m bitmap i blocksNeeded blockCount fuel n
      else return n
    else return n

/-- The loop over the bitmap entries. -/
def findRun (m : Mem) (bitmap blocksNeeded blockCount : UInt32) : ℕ → UInt32 → Traced (Option UInt32)
  | 0, _ => return none
  | fuel + 1, i =>
    if i < blockCount then do
      let c ← readEntry m bitmap blockCount i
      if c = FREE then
        let n ← freeRun m bitmap i blocksNeeded blockCount (blocksNeeded.toNat + 1) 0
        if n = blocksNeeded then return some i
        else
          let skip ← sub n 1
          let i ← add i skip
          let i ← add i 1
          findRun m bitmap blocksNeeded blockCount fuel i
      else
        let i ← add i 1
        findRun m bitmap blocksNeeded blockCount fuel i
    else return none

/-- `memheap_alloc`: the run is claimed. -/
def claim (m : Mem) (sblock : Memblock) (bitmap blocksNeeded blockCount i : UInt32) :
    Traced (UInt32 × Mem × Memblock) := do
  let prev ← sub i 1
  let x ← readEntry m bitmap blockCount prev
  let next ← add i blocksNeeded
  let y ← readEntry m bitmap blockCount next
  let first ← add bitmap i
  let used ← add sblock.used blocksNeeded
  let offset ← mul i sblock.blockSize
  let base ← memblockGetBitmap sblock
  let p ← add offset base
  return (p, memset m first (generateIdentifier x y) blocksNeeded, { sblock with used := used })

/-- The body of `memheap_alloc`'s loop over the superblocks. -/
def allocIn (m : Mem) (size : UInt32) (sblock : Memblock) : Traced (Option (UInt32 × Mem × Memblock)) := do
  let taken ← mul sblock.used sblock.blockSize
  let left ← sub sblock.totalSize taken
  if size ≤ left then
    let blockCount := memblockGetBlockCount sblock
    let blocksNeeded ← CEILING size sblock.blockSize
    let bitmap ← memblockGetBitmap sblock
    match ← findRun m bitmap blocksNeeded blockCount blockCount.toNat 0 with
    | some i =>
      let r ← claim m sblock bitmap blocksNeeded blockCount i
      return some r
    | none => return none
  else return none

/-- `memheap_alloc(heap, size)`. -/
def memheapAlloc (m : Mem) (size : UInt32) : MemHeap → Traced (Option (UInt32 × Mem × MemHeap))
  | [] => return none
  | sblock :: rest => do
    match ← allocIn m size sblock with
    | some (p, m', sblock') => return some (p, m', sblock' :: rest)
    | none =>
      let r ← memheapAlloc m size rest
      return r.map fun (p, m', rest') => (p, m', sblock :: rest')

/-- `for (; bitmap[block_offset] == id && block_offset < block_count; block_offset++) bitmap[block_offset] = 0;` -/
def freeLoop (bitmap : UInt32) (id : UInt8) (blockCount : UInt32) : ℕ → Mem → UInt32 → Traced (Mem × UInt32)
  | 0, m, blockOffset => return (m, blockOffset)
  | fuel + 1, m, blockOffset => do
    let c ← readEntry m bitmap blockCount blockOffset
    if c = id ∧ blockOffset < blockCount then
      let a ← add bitmap blockOffset
      let blockOffset ← add blockOffset 1
      freeLoop bitmap id blockCount fuel (m.set a 0) blockOffset
    else return (m, blockOffset)

/-- `memheap_free`: the run that begins there is given back. -/
def giveBack (m : Mem) (sblock : Memblock) (ptr : UInt32) : Traced (Mem × Memblock) := do
  let base ← memblockGetBitmap sblock
  let offset ← sub ptr base
  let blockStart := offset / sblock.blockSize
  let bitmap ← memblockGetBitmap sblock
  let blockCount := memblockGetBlockCount sblock
  let id ← readEntry m bitmap blockCount blockStart
  let (m, blockOffset) ← freeLoop bitmap id blockCount (blockCount.toNat + 1) m blockStart
  let freed ← sub blockOffset blockStart
  let used ← sub sblock.used freed
  return (m, { sblock with used := used })

/-- The body of `memheap_free`'s loop over the superblocks. -/
def freeIn (m : Mem) (ptr : UInt32) (sblock : Memblock) : Traced (Mem × Memblock) :=
  if sblock.addr < ptr then do
    let header ← add sblock.addr sizeofMemblock
    let top ← add header sblock.totalSize
    if ptr < top then giveBack m sblock ptr else return (m, sblock)
  else return (m, sblock)

/-- `memheap_free(heap, ptr)`. -/
def memheapFree (m : Mem) (ptr : UInt32) : MemHeap → Traced (Mem × MemHeap)
  | [] => return (m, [])
  | sblock :: rest => do
    let (m, sblock) ← freeIn m ptr sblock
    let (m, rest) ← memheapFree m ptr rest
    return (m, sblock :: rest)

end Traced

/-! ### The events -/

section Events

variable {P : HeapEvent → Prop}

@[simp] theorem allEvents_add (x y : UInt32) : (Traced.add x y).AllEvents P ↔ P (.add x y) := by
  simp only [Traced.add, allEvents_bind, allEvents_report, allEvents_pure, and_true]

@[simp] theorem allEvents_sub (x y : UInt32) : (Traced.sub x y).AllEvents P ↔ P (.sub x y) := by
  simp only [Traced.sub, allEvents_bind, allEvents_report, allEvents_pure, and_true]

@[simp] theorem allEvents_mul (x y : UInt32) : (Traced.mul x y).AllEvents P ↔ P (.mul x y) := by
  simp only [Traced.mul, allEvents_bind, allEvents_report, allEvents_pure, and_true]

@[simp] theorem allEvents_bitmap (b : Memblock) :
    (Traced.memblockGetBitmap b).AllEvents P ↔ P (.add b.addr sizeofMemblock) :=
  allEvents_add _ _

@[simp] theorem allEvents_readEntry (m : Mem) (bitmap blockCount idx : UInt32) :
    (Traced.readEntry m bitmap blockCount idx).AllEvents P ↔ P (.add bitmap idx) ∧ P (.read idx blockCount) := by
  simp only [Traced.readEntry, allEvents_bind, allEvents_add, allEvents_report, allEvents_pure, and_true]

end Events

/-! ### The values -/

section Values

variable {m : Mem} {bitmap : UInt32}

@[simp] theorem value_add (x y : UInt32) : (Traced.add x y).value = x + y := by rfl

@[simp] theorem value_sub (x y : UInt32) : (Traced.sub x y).value = x - y := by rfl

@[simp] theorem value_mul (x y : UInt32) : (Traced.mul x y).value = x * y := by rfl

@[simp] theorem value_CEILING (x y : UInt32) : (Traced.CEILING x y).value = CEILING x y := by rfl

@[simp] theorem value_bitmap (b : Memblock) : (Traced.memblockGetBitmap b).value = memblockGetBitmap b := by rfl

@[simp] theorem value_readEntry (m : Mem) (bitmap blockCount idx : UInt32) :
    (Traced.readEntry m bitmap blockCount idx).value = m (bitmap + idx) := by rfl

theorem value_memheapAddBlock (m : Mem) (heap : MemHeap) (addr size blockSize : UInt32) :
    (Traced.memheapAddBlock m heap addr size blockSize).value = memheapAddBlock m heap addr size blockSize := rfl

/-- The scan reads an entry more than it passes. -/
theorem value_freeRun {i n blocksNeeded blockCount : UInt32} {fuel : ℕ} (hfuel : blocksNeeded.toNat ≤ n.toNat + fuel) :
    (Traced.freeRun m bitmap i blocksNeeded blockCount (fuel + 1) n).value =
      freeRun m bitmap i blocksNeeded blockCount fuel n := by
  induction fuel generalizing n with
  | zero =>
    have hend : ¬ n < blocksNeeded := by
      rw [UInt32.lt_iff_toNat_lt]
      omega
    rw [Traced.freeRun, freeRun]
    simp only [value_bind, value_add, hend, and_false, if_false, value_pure]
  | succ fuel ih =>
    rw [Traced.freeRun, freeRun]
    simp only [value_bind, value_add, value_readEntry]
    by_cases hgo : m (bitmap + (i + n)) = FREE ∧ n < blocksNeeded
    · rw [if_pos hgo]
      simp only [value_bind, value_add]
      by_cases hidx : i + n < blockCount
      · have hnext := toNat_add_one_of_lt hgo.2
        rw [if_pos hidx, if_pos ⟨hgo.1, hgo.2, hidx⟩]
        exact ih (by omega)
      · rw [if_neg hidx, if_neg fun h => hidx h.2.2, value_pure]
    · rw [if_neg hgo, if_neg fun h => hgo ⟨h.1, h.2.1⟩, value_pure]

/-- A scan from an entry that is free passes it. -/
theorem freeRun_bounds {i blocksNeeded blockCount : UInt32} (hlt : i < blockCount) (hfree : m (bitmap + i) = FREE)
    (hpos : 0 < blocksNeeded.toNat) :
    ∃ n, freeRun m bitmap i blocksNeeded blockCount blocksNeeded.toNat 0 = UInt32.ofNat n ∧ 0 < n ∧
    n ≤ blocksNeeded.toNat ∧
      i.toNat + n ≤ blockCount.toNat ∧ (∀ k < n, m (bitmap + UInt32.ofNat (i.toNat + k)) = FREE) ∧
      (n = blocksNeeded.toNat ∨ i.toNat + n = blockCount.toNat ∨ m (bitmap + UInt32.ofNat (i.toNat + n)) ≠ FREE) := by
  rw [UInt32.lt_iff_toNat_lt] at hlt
  obtain ⟨n, hn, -, hle, hin, hall, hstop⟩ :=
    @freeRun_spec m bitmap i.toNat 0 blocksNeeded blockCount (Nat.zero_le _) (by omega) blocksNeeded.toNat (by omega)
  rw [UInt32.ofNat_toNat] at hn
  refine ⟨n, hn, ?_, hle, hin, fun k hk => hall k (Nat.zero_le k) hk, hstop⟩
  by_contra hzero
  obtain rfl : n = 0 := by omega
  rw [Nat.add_zero, UInt32.ofNat_toNat] at hstop
  rcases hstop with h | h | h
  · omega
  · omega
  · exact h hfree

theorem value_findRun (blocksNeeded blockCount : UInt32) (fuel : ℕ) (i : UInt32) :
    (Traced.findRun m bitmap blocksNeeded blockCount fuel i).value =
      findRun m bitmap blocksNeeded blockCount fuel i := by
  induction fuel generalizing i with
  | zero => rfl
  | succ fuel ih =>
    have hrun : (Traced.freeRun m bitmap i blocksNeeded blockCount (blocksNeeded.toNat + 1) 0).value =
        freeRun m bitmap i blocksNeeded blockCount blocksNeeded.toNat 0 := value_freeRun (Nat.le_add_left _ _)
    rw [Traced.findRun, findRun]
    by_cases hlt : i < blockCount
    · rw [if_pos hlt, if_pos hlt]
      simp only [value_bind, value_readEntry]
      by_cases hfree : m (bitmap + i) = FREE
      · rw [if_pos hfree, if_pos hfree]
        simp only [value_bind, hrun]
        by_cases hfit : freeRun m bitmap i blocksNeeded blockCount blocksNeeded.toNat 0 = blocksNeeded
        · rw [if_pos hfit, if_pos hfit, value_pure]
        · rw [if_neg hfit, if_neg hfit]
          exact ih _
      · rw [if_neg hfree, if_neg hfree]
        exact ih _
    · rw [if_neg hlt, if_neg hlt, value_pure]

theorem value_allocIn (m : Mem) (size : UInt32) (b : Memblock) :
    (Traced.allocIn m size b).value = allocIn m size b := by
  rw [Traced.allocIn, allocIn]
  simp only [value_bind, value_mul, value_sub]
  split_ifs with hfit
  · simp only [value_bind, value_CEILING, value_bitmap, value_findRun]
    cases findRun m (memblockGetBitmap b) (CEILING size b.blockSize) (memblockGetBlockCount b)
      (memblockGetBlockCount b).toNat 0 <;> rfl
  · rfl

theorem value_memheapAlloc (m : Mem) (size : UInt32) (heap : MemHeap) :
    (Traced.memheapAlloc m size heap).value = memheapAlloc m size heap := by
  induction heap with
  | nil => rfl
  | cons b rest ih =>
    rw [Traced.memheapAlloc, memheapAlloc]
    simp only [value_bind, value_allocIn]
    cases allocIn m size b with
    | some r => rfl
    | none => exact congrArg (Option.map _) ih

theorem value_freeLoop {id : UInt8} {blockCount off : UInt32} {fuel : ℕ} (hfuel : blockCount.toNat ≤ off.toNat + fuel) :
    (Traced.freeLoop bitmap id blockCount (fuel + 1) m off).value = freeLoop bitmap id blockCount fuel m off := by
  induction fuel generalizing m off with
  | zero =>
    have hend : ¬ off < blockCount := by
      rw [UInt32.lt_iff_toNat_lt]
      omega
    rw [Traced.freeLoop, freeLoop]
    simp only [value_bind, hend, and_false, if_false, value_pure]
  | succ fuel ih =>
    rw [Traced.freeLoop, freeLoop]
    simp only [value_bind, value_readEntry]
    split_ifs with hgo
    · have hnext := toNat_add_one_of_lt hgo.2
      simp only [value_bind, value_add]
      exact ih (by omega)
    · rfl

theorem value_freeIn (m : Mem) (p : UInt32) (b : Memblock) : (Traced.freeIn m p b).value = freeIn m p b := by
  have hloop : ∀ id off,
      (Traced.freeLoop (memblockGetBitmap b) id (memblockGetBlockCount b) ((memblockGetBlockCount b).toNat + 1)
        m off).value =
      freeLoop (memblockGetBitmap b) id (memblockGetBlockCount b) (memblockGetBlockCount b).toNat m off := fun id off =>
    value_freeLoop (Nat.le_add_left _ _)
  rw [Traced.freeIn, freeIn]
  by_cases hlo : b.addr < p
  · rw [if_pos hlo]
    simp only [value_bind, value_add]
    by_cases hhi : p < b.addr + sizeofMemblock + b.totalSize
    · rw [if_pos hhi, if_pos ⟨hlo, hhi⟩, Traced.giveBack]
      simp only [value_bind, value_bitmap, value_sub, value_readEntry, hloop]
      rfl
    · rw [if_neg hhi, if_neg fun h => hhi h.2, value_pure]
  · rw [if_neg hlo, if_neg fun h => hlo h.1, value_pure]

theorem value_memheapFree (m : Mem) (p : UInt32) (heap : MemHeap) :
    (Traced.memheapFree m p heap).value = memheapFree m p heap := by
  induction heap generalizing m with
  | nil => rfl
  | cons b rest ih =>
    rw [Traced.memheapFree, memheapFree]
    simp only [value_bind, value_freeIn, ih]
    rfl

end Values

/-! ### The lists -/

section Lists

variable {P : HeapEvent → Prop} {m : Mem} {p size : UInt32} {heap pre post : MemHeap} {b : Memblock}

/-- `memheap_alloc` goes on to the next superblock as long as it is not served. -/
theorem allEvents_memheapAlloc : (Traced.memheapAlloc m size heap).AllEvents P ↔
    ∀ pre b post, heap = pre ++ b :: post → (∀ c ∈ pre, allocIn m size c = none) →
    (Traced.allocIn m size b).AllEvents P := by
  induction heap with
  | nil => exact iff_of_true (allEvents_pure _) fun pre b post h =>
      absurd h.symm (List.append_ne_nil_of_right_ne_nil pre (List.cons_ne_nil b post))
  | cons d rest ih =>
    rw [Traced.memheapAlloc]
    simp only [allEvents_bind, value_allocIn]
    constructor
    · rintro ⟨hd, hrest⟩ (_ | ⟨c, pre⟩) b post h hpre
      · obtain ⟨rfl, -⟩ := List.cons.inj h
        exact hd
      · obtain ⟨rfl, rfl⟩ := List.cons.inj h
        obtain ⟨hnone, hpre⟩ := List.forall_mem_cons.mp hpre
        simp only [hnone, allEvents_bind, allEvents_pure, and_true] at hrest
        exact ih.mp hrest pre b post rfl hpre
    · intro h
      refine ⟨h [] d rest rfl fun c hc => absurd hc List.not_mem_nil, ?_⟩
      cases hd : allocIn m size d with
      | some r => exact allEvents_pure _
      | none =>
        simp only [allEvents_bind, allEvents_pure, and_true]
        refine ih.mpr fun pre b post hheap hpre => h (d :: pre) b post (congrArg _ hheap) ?_
        exact List.forall_mem_cons.mpr ⟨hd, hpre⟩

/-- `memheap_free` goes past the superblock. -/
def Passed (P : HeapEvent → Prop) (p : UInt32) (c : Memblock) : Prop :=
  ∀ m, freeIn m p c = (m, c) ∧ (Traced.freeIn m p c).AllEvents P

theorem allEvents_memheapFree_of_passed (h : ∀ c ∈ heap, Passed P p c) : (Traced.memheapFree m p heap).AllEvents P := by
  induction heap generalizing m with
  | nil => exact allEvents_pure _
  | cons c rest ih =>
    obtain ⟨hc, hrest⟩ := List.forall_mem_cons.mp h
    rw [Traced.memheapFree]
    simp only [allEvents_bind, value_freeIn, (hc m).1, allEvents_pure, and_true]
    exact ⟨(hc m).2, ih hrest⟩

/-- It works in one superblock, if it goes past the others. -/
theorem allEvents_memheapFree_append (hpre : ∀ c ∈ pre, Passed P p c) (hpost : ∀ c ∈ post, Passed P p c) :
    (Traced.memheapFree m p (pre ++ b :: post)).AllEvents P ↔ (Traced.freeIn m p b).AllEvents P := by
  induction pre with
  | nil =>
    rw [List.nil_append, Traced.memheapFree]
    simp only [allEvents_bind, allEvents_pure, and_true]
    exact and_iff_left (allEvents_memheapFree_of_passed hpost)
  | cons c pre ih =>
    obtain ⟨hc, hpre⟩ := List.forall_mem_cons.mp hpre
    rw [List.cons_append, Traced.memheapFree]
    simp only [allEvents_bind, value_freeIn, (hc m).1, allEvents_pure, and_true]
    rw [ih hpre]
    exact and_iff_right (hc m).2

end Lists

end MoltarOS.Mm
