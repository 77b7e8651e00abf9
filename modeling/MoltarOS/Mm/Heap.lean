import MoltarOS.Libc.String
import Mathlib.Algebra.Order.Floor.Div

/-!
# The kernel heap

`mm/heap.c`: a list of superblocks, each a header, a bitmap of one byte for each block,
and the blocks. The bitmap lies in the first blocks of the superblock it describes.
An allocation is a run of blocks whose entries hold one identifier, which is unlike
those of the entries on both sides; `memheap_free` is not told a size and clears
entries as long as the identifier repeats.

## The model

A heap is the list of superblocks from `head` up to the `NULL` that ends it, so adding
a superblock at address `0` leaves the empty list: the pointer stored in `head` is then
`NULL`. A superblock's header is a record, the list order standing for its `next` field;
its bitmap is bytes of memory, which is where the C code has it. The field `last_alloc`
is not used by the code and is left out.

A loop of the source is a recursion on the number of iterations it can still make;
`freeRun_spec`, `findRun_spec` and `freeLoop_spec` say that this number is never
exhausted before the loop's own test fails.
-/

namespace MoltarOS.Mm

open MoltarOS.Lib MoltarOS.Lib.Word MoltarOS.Libc

/-! ### The code -/

/-- Identifies that the bitmap's entry is free to use. -/
def FREE : UInt8 := 0

/-- `sizeof(memblock_t)`: five fields of 32 bits. -/
def sizeofMemblock : UInt32 := 20

/-- Ceiling of integer division, in 32 bits. -/
def CEILING (x y : UInt32) : UInt32 := (x + y - 1) / y

/-- `memblock_t`: a superblock's address and header. -/
structure Memblock where
  /-- The address of the superblock. -/
  addr : UInt32
  /-- The total size in raw bytes of this superblock, without the header. -/
  totalSize : UInt32
  /-- Number of blocks used. -/
  used : UInt32
  /-- The size of the individual blocks of memory. -/
  blockSize : UInt32
  deriving DecidableEq, Repr

/-- `memheap_t`: the superblocks from `head` on. -/
abbrev MemHeap := List Memblock

/-- `memheap_init`. -/
def memheapInit : MemHeap := []

/-- `&sblock[1]`: the bitmap is located directly after the superblock itself. -/
def memblockGetBitmap (sblock : Memblock) : UInt32 := sblock.addr + sizeofMemblock

/-- The number of blocks in this superblock. -/
def memblockGetBlockCount (sblock : Memblock) : UInt32 := sblock.totalSize / sblock.blockSize

/-- `for(; z == x || z == y; ++z);` -/
def identifierLoop (x y : UInt8) : ℕ → UInt8 → UInt8
  | 0, z => z
  | fuel + 1, z => if z = x ∨ z = y then identifierLoop x y fuel (z + 1) else z

/-- An identifier distinct from the two passed. -/
def generateIdentifier (x y : UInt8) : UInt8 := identifierLoop x y 256 1

/-- `memheap_add_block(heap, addr, size, block_size)`. -/
def memheapAddBlock (m : Mem) (heap : MemHeap) (addr size blockSize : UInt32) : Mem × MemHeap :=
  let sblock : Memblock :=
    { addr := addr, totalSize := size - sizeofMemblock, used := 0, blockSize := blockSize }
  let blockCount := sblock.totalSize / sblock.blockSize
  let bitmap := memblockGetBitmap sblock
  -- clear the bitmap, then reserve room for it
  let m := memset m bitmap FREE blockCount
  let blockCount := CEILING blockCount blockSize
  let m := memset m bitmap 1 blockCount
  let sblock := { sblock with used := blockCount }
  -- a superblock at address 0 makes `head` the NULL that ends the list
  (m, if addr = 0 then [] else sblock :: heap)

/-- `for (; bitmap[i + n] == FREE && n < blocks_needed && (i + n) < block_count; n++);` -/
def freeRun (m : Mem) (bitmap i blocksNeeded blockCount : UInt32) : ℕ → UInt32 → UInt32
  | 0, n => n
  | fuel + 1, n =>
    if m (bitmap + (i + n)) = FREE ∧ n < blocksNeeded ∧ i + n < blockCount then
      freeRun m bitmap i blocksNeeded blockCount fuel (n + 1)
    else n

/-- The loop over the bitmap entries: the index `i` at which it returns, if it does. -/
def findRun (m : Mem) (bitmap blocksNeeded blockCount : UInt32) : ℕ → UInt32 → Option UInt32
  | 0, _ => none
  | fuel + 1, i =>
    if i < blockCount then
      if m (bitmap + i) = FREE then
        let n := freeRun m bitmap i blocksNeeded blockCount blocksNeeded.toNat 0
        if n = blocksNeeded then some i
        else findRun m bitmap blocksNeeded blockCount fuel (i + (n - 1) + 1)
      else findRun m bitmap blocksNeeded blockCount fuel (i + 1)
    else none

/-- The body of `memheap_alloc`'s loop over the superblocks: what it returns, if it does. -/
def allocIn (m : Mem) (size : UInt32) (sblock : Memblock) : Option (UInt32 × Mem × Memblock) :=
  if size ≤ sblock.totalSize - sblock.used * sblock.blockSize then
    let blockCount := memblockGetBlockCount sblock
    let blocksNeeded := CEILING size sblock.blockSize
    let bitmap := memblockGetBitmap sblock
    match findRun m bitmap blocksNeeded blockCount blockCount.toNat 0 with
    | some i =>
      let id := generateIdentifier (m (bitmap + (i - 1))) (m (bitmap + (i + blocksNeeded)))
      some (i * sblock.blockSize + bitmap, memset m (bitmap + i) id blocksNeeded,
        { sblock with used := sblock.used + blocksNeeded })
    | none => none
  else none

/-- `memheap_alloc(heap, size)`: the pointer, the memory and the heap, or `none` for `NULL`,
which leaves both as they were. -/
def memheapAlloc (m : Mem) (size : UInt32) : MemHeap → Option (UInt32 × Mem × MemHeap)
  | [] => none
  | sblock :: rest =>
    match allocIn m size sblock with
    | some (p, m', sblock') => some (p, m', sblock' :: rest)
    | none => (memheapAlloc m size rest).map fun (p, m', rest') => (p, m', sblock :: rest')

/-- `for (; bitmap[block_offset] == id && block_offset < block_count; block_offset++)
bitmap[block_offset] = 0;` -/
def freeLoop (bitmap : UInt32) (id : UInt8) (blockCount : UInt32) : ℕ → Mem → UInt32 → Mem × UInt32
  | 0, m, blockOffset => (m, blockOffset)
  | fuel + 1, m, blockOffset =>
    if m (bitmap + blockOffset) = id ∧ blockOffset < blockCount then
      freeLoop bitmap id blockCount fuel (m.set (bitmap + blockOffset) 0) (blockOffset + 1)
    else (m, blockOffset)

/-- The body of `memheap_free`'s loop over the superblocks. -/
def freeIn (m : Mem) (ptr : UInt32) (sblock : Memblock) : Mem × Memblock :=
  if sblock.addr < ptr ∧ ptr < sblock.addr + sizeofMemblock + sblock.totalSize then
    let bitmap := memblockGetBitmap sblock
    let blockStart := (ptr - bitmap) / sblock.blockSize
    let id := m (bitmap + blockStart)
    let blockCount := memblockGetBlockCount sblock
    let (m, blockOffset) := freeLoop bitmap id blockCount blockCount.toNat m blockStart
    (m, { sblock with used := sblock.used - (blockOffset - blockStart) })
  else (m, sblock)

/-- `memheap_free(heap, ptr)`; the loop goes on after the superblock that holds `ptr`. -/
def memheapFree (m : Mem) (ptr : UInt32) : MemHeap → Mem × MemHeap
  | [] => (m, [])
  | sblock :: rest =>
    let (m, sblock) := freeIn m ptr sblock
    let (m, rest) := memheapFree m ptr rest
    (m, sblock :: rest)

/-! ### The loops -/

/-- An identifier is never FREE and never either neighbour's. -/
theorem generateIdentifier_spec (x y : UInt8) :
    generateIdentifier x y ≠ FREE ∧ generateIdentifier x y ≠ x ∧ generateIdentifier x y ≠ y := by
  -- one of 1, 2, 3 is neither `x` nor `y`, so the loop is over after two increments
  rw [generateIdentifier, identifierLoop, identifierLoop, identifierLoop, FREE]
  split_ifs <;> grind

/-- Entry `k` of the bitmap. -/
def entry (m : Mem) (sblock : Memblock) (k : ℕ) : UInt8 :=
  m (memblockGetBitmap sblock + UInt32.ofNat k)

section Loops

variable (m : Mem) (bitmap : UInt32)

private theorem ofNat_lt_iff {k : ℕ} {c : UInt32} (h : k < 2 ^ 32) : UInt32.ofNat k < c ↔ k < c.toNat :=
  UInt32.ofNat_lt_iff h

/-- The inner scan: it stops at the number of blocks needed, at the end of the bitmap or at
an entry in use, and all the entries it passed are free. -/
theorem freeRun_spec {i n : ℕ} {blocksNeeded blockCount : UInt32} (hn : n ≤ blocksNeeded.toNat)
    (hin : i + n ≤ blockCount.toNat) {fuel : ℕ} (hfuel : blocksNeeded.toNat ≤ n + fuel) :
    ∃ n', freeRun m bitmap (UInt32.ofNat i) blocksNeeded blockCount fuel (UInt32.ofNat n) = UInt32.ofNat n' ∧
      n ≤ n' ∧ n' ≤ blocksNeeded.toNat ∧ i + n' ≤ blockCount.toNat ∧
      (∀ k, n ≤ k → k < n' → m (bitmap + UInt32.ofNat (i + k)) = FREE) ∧
      (n' = blocksNeeded.toNat ∨ i + n' = blockCount.toNat ∨ m (bitmap + UInt32.ofNat (i + n')) ≠ FREE) := by
  have hc := blockCount.toNat_lt
  induction fuel generalizing n with
  | zero =>
    refine ⟨n, rfl, le_rfl, hn, hin, fun k h1 h2 => by omega, Or.inl (by omega)⟩
  | succ fuel ih =>
    have hidx : UInt32.ofNat i + UInt32.ofNat n = UInt32.ofNat (i + n) := (UInt32.ofNat_add i n).symm
    have hn' : UInt32.ofNat n < blocksNeeded ↔ n < blocksNeeded.toNat := ofNat_lt_iff (by omega)
    have hi' : UInt32.ofNat (i + n) < blockCount ↔ i + n < blockCount.toNat := ofNat_lt_iff (by omega)
    simp only [freeRun, hidx, hn', hi']
    by_cases hcond : m (bitmap + UInt32.ofNat (i + n)) = FREE ∧ n < blocksNeeded.toNat ∧ i + n < blockCount.toNat
    · obtain ⟨hfree, hlt, hlt'⟩ := hcond
      rw [if_pos ⟨hfree, hlt, hlt'⟩, ← ofNat_add_one]
      obtain ⟨n', heq, h1, h2, h3, h4, h5⟩ := ih (n := n + 1) (by omega) (by omega) (by omega)
      refine ⟨n', heq, by omega, h2, h3, fun k hk1 hk2 => ?_, h5⟩
      by_cases hkn : k = n
      · rw [hkn, hfree]
      · exact h4 k (by omega) hk2
    · rw [if_neg hcond]
      refine ⟨n, rfl, le_rfl, hn, hin, fun k h1 h2 => by omega, ?_⟩
      by_contra hno
      rw [not_or, not_or, not_not] at hno
      exact hcond ⟨hno.2.2, by omega, by omega⟩

/-- A run of `n` free entries begins at `i`. -/
def RunAt (n count i : ℕ) : Prop := i + n ≤ count ∧ ∀ k < n, m (bitmap + UInt32.ofNat (i + k)) = FREE

/-- What a scan from entry `i₀` returns: the first run from there on, or that there is none. -/
def FirstRun (n count i₀ : ℕ) (r : Option UInt32) : Prop :=
  (∃ i, r = some (UInt32.ofNat i) ∧ i₀ ≤ i ∧ RunAt m bitmap n count i ∧ ∀ j, i₀ ≤ j → j < i →
    ¬ RunAt m bitmap n count j) ∨
    (r = none ∧ ∀ j, i₀ ≤ j → ¬ RunAt m bitmap n count j)

variable {m bitmap} in
/-- Entries at which no run begins may be skipped. -/
theorem FirstRun.skip {n count i₀ i₁ : ℕ} {r : Option UInt32} (h : FirstRun m bitmap n count i₁ r) (hle : i₀ ≤ i₁)
    (hskip : ∀ j, i₀ ≤ j → j < i₁ → ¬ RunAt m bitmap n count j) : FirstRun m bitmap n count i₀ r := by
  have hall : ∀ j, i₀ ≤ j → (i₁ ≤ j → ¬ RunAt m bitmap n count j) → ¬ RunAt m bitmap n count j := by
    intro j hj hrest
    by_cases hj' : j < i₁
    · exact hskip j hj hj'
    · exact hrest (Nat.not_lt.mp hj')
  rcases h with ⟨i, heq, hi, hrun, hfirst⟩ | ⟨heq, hnone⟩
  · exact Or.inl ⟨i, heq, hle.trans hi, hrun, fun j hj hji => hall j hj fun hj' => hfirst j hj' hji⟩
  · exact Or.inr ⟨heq, fun j hj => hall j hj (hnone j)⟩

variable {m bitmap} in
/-- No run begins in front of an entry that is in use, or too close to the end. -/
theorem not_runAt_of_stop {n count i₀ k j : ℕ} (hstop : i₀ + k = count ∨ m (bitmap + UInt32.ofNat (i₀ + k)) ≠ FREE)
    (hk : k < n) (hj : i₀ ≤ j) (hjk : j < i₀ + k) : ¬ RunAt m bitmap n count j := by
  intro hrun
  rcases hstop with hend | hused
  · have := hrun.1
    omega
  · apply hused
    have hfree := hrun.2 (i₀ + k - j) (by omega)
    rwa [show j + (i₀ + k - j) = i₀ + k by omega] at hfree

/-- The scan from entry `i₀` returns the first run of free entries from there on, or there
is none. -/
theorem findRun_spec {blocksNeeded blockCount : UInt32} (hpos : 0 < blocksNeeded.toNat) {i₀ fuel : ℕ}
    (hle : i₀ ≤ blockCount.toNat) (hfuel : blockCount.toNat ≤ i₀ + fuel) :
    FirstRun m bitmap blocksNeeded.toNat blockCount.toNat i₀
      (findRun m bitmap blocksNeeded blockCount fuel (UInt32.ofNat i₀)) := by
  have hc := blockCount.toNat_lt
  have hb := blocksNeeded.toNat_lt
  have hend : ∀ j, blockCount.toNat ≤ j → ¬ RunAt m bitmap blocksNeeded.toNat blockCount.toNat j := by
    intro j hj hrun
    have := hrun.1
    omega
  induction fuel generalizing i₀ with
  | zero => exact Or.inr ⟨rfl, fun j hj => hend j (by omega)⟩
  | succ fuel ih =>
    have hi' : UInt32.ofNat i₀ < blockCount ↔ i₀ < blockCount.toNat := ofNat_lt_iff (by omega)
    simp only [findRun, hi']
    by_cases hlt : i₀ < blockCount.toNat
    swap
    · rw [if_neg hlt]
      exact Or.inr ⟨rfl, fun j hj => hend j (by omega)⟩
    rw [if_pos hlt]
    by_cases hfree : m (bitmap + UInt32.ofNat i₀) = FREE
    · rw [if_pos hfree]
      obtain ⟨n, hn, -, hnb, hnc, hall, hstop⟩ :=
        @freeRun_spec m bitmap i₀ 0 blocksNeeded blockCount (Nat.zero_le _) (by omega) blocksNeeded.toNat (by omega)
      have hn0 : freeRun m bitmap (UInt32.ofNat i₀) blocksNeeded blockCount blocksNeeded.toNat 0 = UInt32.ofNat n := hn
      simp only [hn0]
      by_cases hfit : n = blocksNeeded.toNat
      · rw [if_pos (by rw [hfit, UInt32.ofNat_toNat])]
        refine Or.inl ⟨i₀, rfl, le_rfl, ⟨by omega, fun k hk => hall k (Nat.zero_le k) (by omega)⟩, ?_⟩
        intro j h1 h2
        omega
      · have hne : UInt32.ofNat n ≠ blocksNeeded := fun he => hfit (by
          rw [← he, toNat_ofNat_of_lt (by omega)])
        have hstop' := hstop.resolve_left hfit
        -- the entry at `i₀` is free, so the scan passed it
        have hn1 : 0 < n := by
          rcases Nat.eq_zero_or_pos n with h0 | h0
          · subst h0
            rcases hstop' with h | h
            · omega
            · exact absurd hfree (by simpa using h)
          · exact h0
        have hnext : UInt32.ofNat i₀ + (UInt32.ofNat n - 1) + 1 = UInt32.ofNat (i₀ + n) := by
          rw [UInt32.ofNat_add]
          grind
        rw [if_neg hne, hnext]
        exact (@ih (i₀ + n) (by omega) (by omega)).skip (Nat.le_add_right i₀ n) fun j =>
          not_runAt_of_stop hstop' (by omega)
    · rw [if_neg hfree, ← ofNat_add_one]
      refine (@ih (i₀ + 1) (by omega) (by omega)).skip (Nat.le_succ i₀) fun j hj hj' hrun => hfree ?_
      obtain rfl : j = i₀ := by omega
      simpa using hrun.2 0 hpos

variable {m bitmap}

/-- The clearing loop: it clears the entries from `off` up to the first that does not hold
the identifier. -/
theorem freeLoop_spec {id : UInt8} {blockCount : UInt32} {m : Mem} {off stop fuel : ℕ} (hle : off ≤ stop)
    (hcnt : stop ≤ blockCount.toNat) (hid : ∀ k, off ≤ k → k < stop → m (bitmap + UInt32.ofNat k) = id)
    (hstop : stop < blockCount.toNat → m (bitmap + UInt32.ofNat stop) ≠ id) (hfuel : stop ≤ off + fuel) :
    freeLoop bitmap id blockCount fuel m (UInt32.ofNat off) =
      (memset m (bitmap + UInt32.ofNat off) 0 (UInt32.ofNat (stop - off)), UInt32.ofNat stop) := by
  have hc := blockCount.toNat_lt
  have hnil : ∀ (m : Mem) (a : UInt32), memset m a 0 (UInt32.ofNat 0) = m := fun m a => rfl
  induction fuel generalizing m off with
  | zero =>
    rw [show off = stop by omega, Nat.sub_self, hnil]
    rfl
  | succ fuel ih =>
    have ho' : UInt32.ofNat off < blockCount ↔ off < blockCount.toNat := ofNat_lt_iff (by omega)
    simp only [freeLoop, ho']
    rcases Nat.eq_or_lt_of_le hle with rfl | hlt
    · rw [if_neg fun h => hstop h.2 h.1, Nat.sub_self, hnil]
    · rw [if_pos ⟨hid off le_rfl hlt, by omega⟩, ← ofNat_add_one]
      -- the entries further on are other bytes
      have hother : ∀ k, off < k → k ≤ stop → ∀ v,
          m.set (bitmap + UInt32.ofNat off) v (bitmap + UInt32.ofNat k) = m (bitmap + UInt32.ofNat k) := by
        intro k h1 h2 v
        apply Mem.set_of_ne
        intro he
        have := (eq_add_ofNat_iff (a := bitmap) (n := off) (by omega)).mp he
        rw [dist_add_ofNat bitmap (by omega)] at this
        omega
      rw [ih (by omega) (fun k h1 h2 => by rw [hother k (by omega) (by omega)]; exact hid k (by omega) h2)
        (fun h => by rw [hother stop hlt le_rfl]; exact hstop h) (by omega)]
      refine congrArg (·, UInt32.ofNat stop) (funext fun a => ?_)
      rw [memset_apply, memset_apply, toNat_ofNat_of_lt (by omega), toNat_ofNat_of_lt (by omega), Mem.set_apply]
      have hnext : bitmap + UInt32.ofNat (off + 1) = bitmap + UInt32.ofNat off + 1 := by
        rw [ofNat_add_one]
        grind
      by_cases ha : a = bitmap + UInt32.ofNat off
      · rw [if_pos ha, ite_self, ha, dist_self, if_pos (by omega)]
      · have hd := dist_add_one ha
        rw [if_neg ha, hnext]
        by_cases hin : dist (bitmap + UInt32.ofNat off) a < stop - off
        · rw [if_pos (by omega), if_pos hin]
        · rw [if_neg (by omega), if_neg hin]

end Loops

end MoltarOS.Mm
