import MoltarOS.Lib.LinkedList
import MoltarOS.Mm.HeapSecrecy

/-!
# The heap in memory

`mm/heap.c` with the headers of the superblocks where they are: `memblock_t` is five words of memory in front of the
bitmap, `memheap_t` is a word, and the functions follow `next`. `Heap.lean` has the headers in a list of records
instead; the loops over a bitmap are the same.

A loop over the superblocks is a recursion on a number of iterations; `none` is where that runs out before the loop
has ended. `memheapAlloc_eq` and `memheapFree_eq` say that one more iteration than there are superblocks is enough.
-/

namespace MoltarOS.Mm.Raw

open MoltarOS.Lib MoltarOS.Lib.Word MoltarOS.Lib.Mem MoltarOS.Libc

/-! ### The code -/

/-- Where `next` is in a `memblock_t`. -/
def next : UInt32 := 0

/-- `total_size`. -/
def totalSize : UInt32 := 4

/-- `used`. -/
def used : UInt32 := 8

/-- `block_size`. -/
def blockSize : UInt32 := 12

/-- `memheap_init(heap)`. -/
def memheapInit (m : Mem) (heap : UInt32) : Mem := m.store32 heap 0

/-- `&sblock[1]`. -/
def memblockGetBitmap (sblock : UInt32) : UInt32 := sblock + sizeofMemblock

/-- The number of blocks in this superblock. -/
def memblockGetBlockCount (m : Mem) (sblock : UInt32) : UInt32 :=
  m.load32 (sblock + totalSize) / m.load32 (sblock + blockSize)

/-- `memheap_add_block(heap, addr, size, block_size)`. -/
def memheapAddBlock (m : Mem) (heap addr size block_size : UInt32) : Mem :=
  let m := m.store32 (addr + totalSize) (size - sizeofMemblock)
  let m := m.store32 (addr + blockSize) block_size
  -- the superblock becomes the head of the list
  let m := m.store32 (addr + next) (m.load32 heap)
  let m := m.store32 heap addr
  let blockCount := memblockGetBlockCount m addr
  let bitmap := memblockGetBitmap addr
  let m := memset m bitmap FREE blockCount
  let blockCount := CEILING blockCount block_size
  let m := memset m bitmap 1 blockCount
  m.store32 (addr + used) blockCount

/-- The body of `memheap_alloc`'s loop over the superblocks: what it returns, if it does. -/
def allocIn (m : Mem) (size sblock : UInt32) : Option (UInt32 × Mem) :=
  if size ≤ m.load32 (sblock + totalSize) - m.load32 (sblock + used) * m.load32 (sblock + blockSize) then
    let blockCount := memblockGetBlockCount m sblock
    let blocksNeeded := CEILING size (m.load32 (sblock + blockSize))
    let bitmap := memblockGetBitmap sblock
    match findRun m bitmap blocksNeeded blockCount blockCount.toNat 0 with
    | some i =>
      let id := generateIdentifier (m (bitmap + (i - 1))) (m (bitmap + (i + blocksNeeded)))
      let m := memset m (bitmap + i) id blocksNeeded
      let m := m.store32 (sblock + used) (m.load32 (sblock + used) + blocksNeeded)
      some (i * m.load32 (sblock + blockSize) + bitmap, m)
    | none => none
  else none

/-- `for (memblock_t *sblock = heap->head; sblock; sblock = sblock->next)` of `memheap_alloc`, with `NULL` after the
last. -/
def allocLoop (size : UInt32) (m : Mem) : ℕ → UInt32 → Option (UInt32 × Mem)
  | 0, _ => none
  | fuel + 1, sblock =>
    if sblock = 0 then some (0, m)
    else
      match allocIn m size sblock with
      | some r => some r
      | none => allocLoop size m fuel (m.load32 (sblock + next))

/-- `memheap_alloc(heap, size)`: the pointer and the memory. -/
def memheapAlloc (m : Mem) (heap size : UInt32) (fuel : ℕ) : Option (UInt32 × Mem) :=
  allocLoop size m fuel (m.load32 heap)

/-- The body of `memheap_free`'s loop over the superblocks. -/
def freeIn (m : Mem) (ptr sblock : UInt32) : Mem :=
  if sblock < ptr ∧ ptr < sblock + sizeofMemblock + m.load32 (sblock + totalSize) then
    let blockStart := (ptr - memblockGetBitmap sblock) / m.load32 (sblock + blockSize)
    let bitmap := memblockGetBitmap sblock
    let id := m (bitmap + blockStart)
    let blockCount := memblockGetBlockCount m sblock
    let (m, blockOffset) := freeLoop bitmap id blockCount blockCount.toNat m blockStart
    m.store32 (sblock + used) (m.load32 (sblock + used) - (blockOffset - blockStart))
  else m

/-- `for (memblock_t *sblock = heap->head; sblock; sblock = sblock->next)` of `memheap_free`. -/
def freeOuter (ptr : UInt32) : Mem → ℕ → UInt32 → Option Mem
  | _, 0, _ => none
  | m, fuel + 1, sblock =>
    if sblock = 0 then some m
    else
      let m := freeIn m ptr sblock
      freeOuter ptr m fuel (m.load32 (sblock + next))

/-- `memheap_free(heap, ptr)`. -/
def memheapFree (m : Mem) (heap ptr : UInt32) (fuel : ℕ) : Option Mem := freeOuter ptr m fuel (m.load32 heap)

/-! ### Headers -/

/-- The header at an address. -/
def readMemblock (m : Mem) (addr : UInt32) : Memblock :=
  ⟨addr, m.load32 (addr + totalSize), m.load32 (addr + used), m.load32 (addr + blockSize)⟩

/-- The bytes of a superblock's header. -/
def InHeader (addr a : UInt32) : Prop := addr.toNat ≤ a.toNat ∧ a.toNat < addr.toNat + 20

variable {m m' m₁ : Mem} {addr a k v : UInt32} {b b' : Memblock} {segs : Set Seg} {size p : UInt32}

/-- The bytes of a word of a header. -/
theorem inHeader_of_dist (hfits : addr.toNat + 20 ≤ 2 ^ 32) (hk : k.toNat + 4 ≤ 20) (ha : dist (addr + k) a < 4) :
    InHeader addr a := by
  have hadd : (addr + k).toNat = addr.toNat + k.toNat := toNat_add_of_lt (by omega)
  obtain ⟨hlo, hhi⟩ := (dist_lt_iff (by omega)).mp ha
  rw [InHeader]
  omega

/-- A word of a header depends on the bytes of the header. -/
theorem load32_header (hfits : addr.toNat + 20 ≤ 2 ^ 32) (hk : k.toNat + 4 ≤ 20)
    (h : ∀ a, InHeader addr a → m' a = m a) :
    m'.load32 (addr + k) = m.load32 (addr + k) :=
  load32_congr fun a ha => h a (inHeader_of_dist hfits hk ha)

/-- Writing it changes no other byte. -/
theorem store32_header (hfits : addr.toNat + 20 ≤ 2 ^ 32) (hk : k.toNat + 4 ≤ 20) (ha : ¬ InHeader addr a) :
    m.store32 (addr + k) v a = m a := by
  rw [store32_apply, if_neg fun hlt => ha (inHeader_of_dist hfits hk hlt)]

theorem readMemblock_congr (hfits : addr.toNat + 20 ≤ 2 ^ 32) (h : ∀ a, InHeader addr a → m' a = m a) :
    readMemblock m' addr = readMemblock m addr := by
  rw [readMemblock, load32_header hfits (by decide) h, load32_header hfits (by decide) h,
    load32_header hfits (by decide) h]
  rfl

/-- Writing `used`. -/
theorem readMemblock_store_used (m : Mem) (addr v : UInt32) :
    readMemblock (m.store32 (addr + used) v) addr = { readMemblock m addr with used := v } := by
  have happly : ∀ k, WordsApart used k → (m.store32 (addr + used) v).load32 (addr + k) =
    m.load32 (addr + k) := fun k hk =>
    load32_store32_apart m (wordsApart_add addr hk) v
  rw [readMemblock, happly totalSize (by decide), happly blockSize (by decide), load32_store32]
  rfl

theorem fits_of_wf (h : b.WF) : b.addr.toNat + 20 ≤ 2 ^ 32 := by
  have hfits := h.fits
  omega

/-- A header is not in its own bitmap. -/
theorem not_inBitmap_of_inHeader (ha : InHeader b.addr a) : ¬ b.InBitmap a := by
  rw [InHeader] at ha
  rw [Memblock.InBitmap, Memblock.base]
  omega

/-! ### One superblock -/

/-- **`memheap_alloc` in a superblock.** -/
theorem allocIn_eq (hb : readMemblock m b.addr = b) (h : BlockInv m b segs) (hsize : 0 < size.toNat) :
    allocIn m size b.addr = (Mm.allocIn m size b).map fun r => (r.1, r.2.1.store32 (b.addr + used) r.2.2.used) := by
  have htotal : m.load32 (b.addr + totalSize) = b.totalSize := congrArg Memblock.totalSize hb
  have hused : m.load32 (b.addr + used) = b.used := congrArg Memblock.used hb
  have hblock : m.load32 (b.addr + blockSize) = b.blockSize := congrArg Memblock.blockSize hb
  have hcount : memblockGetBlockCount m b.addr = Mm.memblockGetBlockCount b := by
    rw [memblockGetBlockCount, htotal, hblock]
    rfl
  have hbitmap : memblockGetBitmap b.addr = Mm.memblockGetBitmap b := rfl
  cases ha : Mm.allocIn m size b with
  | none =>
    rw [Mm.allocIn] at ha
    simp only [allocIn, htotal, hused, hblock, hcount, hbitmap]
    split_ifs at ha ⊢ with hfit
    · cases hrun : findRun m (Mm.memblockGetBitmap b) (CEILING size b.blockSize) (Mm.memblockGetBlockCount b)
        (Mm.memblockGetBlockCount b).toNat 0 with
      | none => rfl
      | some i => simp [hrun] at ha
    · rfl
  | some r =>
    obtain ⟨p, m₁, b'⟩ := r
    obtain ⟨t, hclaim⟩ := h.claimed hsize ha
    -- the header is as before
    have hsame : readMemblock m₁ b.addr = b :=
      (readMemblock_congr (fits_of_wf h.wf) fun a ha => hclaim.frame a (not_inBitmap_of_inHeader ha)).trans hb
    have hused₁ : m₁.load32 (b.addr + used) = b.used := congrArg Memblock.used hsame
    have hblock₁ : ∀ v, (m₁.store32 (b.addr + used) v).load32 (b.addr + blockSize) = b.blockSize := fun v =>
      (load32_store32_apart m₁ (wordsApart_add b.addr (by decide)) v).trans (congrArg Memblock.blockSize hsame)
    rw [Mm.allocIn] at ha
    simp only [allocIn, htotal, hused, hblock, hcount, hbitmap]
    split_ifs at ha ⊢ with hfit
    cases hrun : findRun m (Mm.memblockGetBitmap b) (CEILING size b.blockSize) (Mm.memblockGetBlockCount b)
      (Mm.memblockGetBlockCount b).toNat 0 with
    | none => simp [hrun] at ha
    | some i =>
      simp only [hrun, Option.some.injEq, Prod.mk.injEq] at ha
      obtain ⟨rfl, rfl, rfl⟩ := ha
      simp only [hused₁, hblock₁, Option.map_some]

/-- **`memheap_free` in a superblock.** -/
theorem freeIn_eq (hb : readMemblock m b.addr = b) (hframe : ∀ a, InHeader b.addr a → (Mm.freeIn m p b).1 a = m a)
    (hfits : b.addr.toNat + 20 ≤ 2 ^ 32) :
    freeIn m p b.addr = if b.addr < p ∧ p < b.addr + sizeofMemblock + b.totalSize then
      (Mm.freeIn m p b).1.store32 (b.addr + used) (Mm.freeIn m p b).2.used else m := by
  have htotal : m.load32 (b.addr + totalSize) = b.totalSize := congrArg Memblock.totalSize hb
  have hblock : m.load32 (b.addr + blockSize) = b.blockSize := congrArg Memblock.blockSize hb
  have hcount : memblockGetBlockCount m b.addr = Mm.memblockGetBlockCount b := by
    rw [memblockGetBlockCount, htotal, hblock]
    rfl
  have hbitmap : memblockGetBitmap b.addr = Mm.memblockGetBitmap b := rfl
  have hused := congrArg Memblock.used ((readMemblock_congr hfits hframe).trans hb)
  simp only [freeIn, htotal, hblock, hcount, hbitmap]
  split_ifs with hin
  · simp only [Mm.freeIn, if_pos hin] at hused ⊢
    rw [show Mem.load32 _ (b.addr + used) = b.used from hused]
  · rfl

/-! ### The list of superblocks -/

/-- From the word at `slot` on, the superblocks are in memory. -/
structure Listed (m : Mem) (slot : UInt32) (heap : MemHeap) : Prop where
  /-- Each has the address of the next. -/
  links : Links m next slot (heap.map (·.addr))
  /-- Their headers. -/
  headers : ∀ b ∈ heap, readMemblock m b.addr = b
  /-- None is at `NULL`. -/
  nonnull : ∀ b ∈ heap, b.addr ≠ 0

variable {slot : UInt32} {heap pre post : MemHeap} {fuel : ℕ}

theorem Listed.tail (h : Listed m slot (b :: heap)) : Listed m (b.addr + next) heap :=
  ⟨h.links.2, fun c hc => h.headers c (List.mem_cons_of_mem b hc), fun c hc => h.nonnull c (List.mem_cons_of_mem b hc)⟩

/-- It depends on the word and on the headers. -/
theorem Listed.congr (h : Listed m slot heap) {slot' : UInt32} (hslot : m'.load32 slot' = m.load32 slot)
    (hfits : ∀ b ∈ heap, b.addr.toNat + 20 ≤ 2 ^ 32) (heq : ∀ b ∈ heap, ∀ a, InHeader b.addr a → m' a = m a) :
    Listed m' slot' heap := by
  refine ⟨h.links.congr hslot fun e he => ?_, fun b hb => ?_, h.nonnull⟩
  · obtain ⟨b, hb, rfl⟩ := List.mem_map.mp he
    exact load32_header (hfits b hb) (by decide) (heq b hb)
  · exact (readMemblock_congr (hfits b hb) (heq b hb)).trans (h.headers b hb)

/-- A request that no superblock serves. -/
theorem allocLoop_none (h : Listed m slot heap) (hinv : ∀ b ∈ heap, ∃ segs, BlockInv m b segs) (hsize : 0 < size.toNat)
    (hnone : Mm.memheapAlloc m size heap = none) (hfuel : heap.length < fuel) :
    allocLoop size m fuel (m.load32 slot) = some (0, m) := by
  induction heap generalizing slot fuel with
  | nil =>
    obtain ⟨fuel, rfl⟩ := Nat.exists_eq_succ_of_ne_zero (by omega : fuel ≠ 0)
    exact if_pos h.links
  | cons b heap ih =>
    obtain ⟨fuel, rfl⟩ := Nat.exists_eq_succ_of_ne_zero (by omega : fuel ≠ 0)
    obtain ⟨⟨segs, hb⟩, hheap⟩ := List.forall_mem_cons.mp hinv
    rw [Mm.memheapAlloc] at hnone
    split at hnone
    · cases hnone
    · next hin =>
      rw [h.links.1, allocLoop, if_neg (h.nonnull b List.mem_cons_self),
        allocIn_eq (h.headers b List.mem_cons_self) hb hsize, hin]
      exact ih h.tail hheap (Option.map_eq_none_iff.mp hnone) (by rw [List.length_cons] at hfuel; omega)

/-- A request that one serves. -/
theorem allocLoop_some (h : Listed m slot (pre ++ b :: post)) (hinv : ∀ c ∈ pre ++ b :: post, ∃ segs, BlockInv m c segs)
    (hsize : 0 < size.toNat) (hpre : ∀ c ∈ pre, Mm.allocIn m size c = none)
    (hb : Mm.allocIn m size b = some (p, m₁, b')) (hfuel : pre.length < fuel) :
    allocLoop size m fuel (m.load32 slot) = some (p, m₁.store32 (b.addr + used) b'.used) := by
  induction pre generalizing slot fuel with
  | nil =>
    obtain ⟨fuel, rfl⟩ := Nat.exists_eq_succ_of_ne_zero (by omega : fuel ≠ 0)
    obtain ⟨segs, hseg⟩ := hinv b List.mem_cons_self
    rw [h.links.1, allocLoop, if_neg (h.nonnull b List.mem_cons_self),
      allocIn_eq (h.headers b List.mem_cons_self) hseg hsize, hb]
    rfl
  | cons c pre ih =>
    obtain ⟨fuel, rfl⟩ := Nat.exists_eq_succ_of_ne_zero (by omega : fuel ≠ 0)
    obtain ⟨hc, hpre⟩ := List.forall_mem_cons.mp hpre
    obtain ⟨segs, hseg⟩ := hinv c List.mem_cons_self
    rw [h.links.1, allocLoop, if_neg (h.nonnull c List.mem_cons_self),
      allocIn_eq (h.headers c List.mem_cons_self) hseg hsize, hc]
    exact ih h.tail (fun d hd => hinv d (List.mem_cons_of_mem c hd)) hpre (by rw [List.length_cons] at hfuel; omega)

/-- A superblock that does not hold the pointer is left alone. -/
theorem freeIn_of_not_holds (hb : readMemblock m b.addr = b) (hwf : b.WF) (hp : ¬ b.Holds p) :
    freeIn m p b.addr = m := by
  rw [freeIn_eq hb (fun a _ => by rw [Mm.freeIn_of_not_holds hwf hp]) (fits_of_wf hwf), if_neg fun hin =>
    hp (hwf.taken_iff.mp hin).2]

/-- A pointer that no superblock holds. -/
theorem freeOuter_none (h : Listed m slot heap) (hout : ∀ c ∈ heap, c.WF ∧ ¬ c.Holds p) (hfuel : heap.length < fuel) :
    freeOuter p m fuel (m.load32 slot) = some m := by
  induction heap generalizing slot fuel with
  | nil =>
    obtain ⟨fuel, rfl⟩ := Nat.exists_eq_succ_of_ne_zero (by omega : fuel ≠ 0)
    exact if_pos h.links
  | cons b heap ih =>
    obtain ⟨fuel, rfl⟩ := Nat.exists_eq_succ_of_ne_zero (by omega : fuel ≠ 0)
    obtain ⟨⟨hwf, hb⟩, hheap⟩ := List.forall_mem_cons.mp hout
    rw [h.links.1, freeOuter, if_neg (h.nonnull b List.mem_cons_self),
      freeIn_of_not_holds (h.headers b List.mem_cons_self) hwf hb]
    exact ih h.tail hheap (by rw [List.length_cons] at hfuel; omega)

/-- A pointer that one of them holds. -/
theorem freeOuter_some (h : Listed m slot (pre ++ b :: post)) (hpre : ∀ c ∈ pre, c.WF ∧ ¬ c.Holds p)
    (hpost : ∀ c ∈ post, c.WF ∧ ¬ c.Holds p) (hb : freeIn m p b.addr = m')
    (hnext : m'.load32 (b.addr + next) = m.load32 (b.addr + next))
    (hframe : ∀ c ∈ post, ∀ a, InHeader c.addr a → m' a = m a)
    (hfuel : (pre ++ b :: post).length < fuel) : freeOuter p m fuel (m.load32 slot) = some m' := by
  induction pre generalizing slot fuel with
  | nil =>
    obtain ⟨fuel, rfl⟩ := Nat.exists_eq_succ_of_ne_zero (by omega : fuel ≠ 0)
    rw [h.links.1, freeOuter, if_neg (h.nonnull b List.mem_cons_self), hb]
    refine freeOuter_none (h.tail.congr hnext (fun c hc => fits_of_wf (hpost c hc).1) hframe) hpost ?_
    rw [List.nil_append, List.length_cons] at hfuel
    omega
  | cons c pre ih =>
    obtain ⟨fuel, rfl⟩ := Nat.exists_eq_succ_of_ne_zero (by omega : fuel ≠ 0)
    obtain ⟨⟨hwf, hc⟩, hpre⟩ := List.forall_mem_cons.mp hpre
    rw [h.links.1, freeOuter, if_neg (h.nonnull c List.mem_cons_self),
      freeIn_of_not_holds (h.headers c List.mem_cons_self) hwf hc]
    exact ih h.tail hpre (by rw [List.cons_append, List.length_cons] at hfuel; omega)

end MoltarOS.Mm.Raw
