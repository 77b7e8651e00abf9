import MoltarOS.Mm.Heap
import MoltarOS.Lib.Segments
import Mathlib.Tactic.Ring

/-!
# One superblock

What the heap's operations do to a single superblock, in terms of the segments its
bitmap encodes: `BlockInv m b segs` says that the bitmap of `b` in memory `m` begins with
the reserved entries and that the allocations in it are exactly the segments `segs`.
`memheap_add_block` establishes it without segments, an allocation adds one
(`BlockInv.alloc`), and freeing one removes that one and no other (`BlockInv.free`).

All sizes and indices are natural numbers here; that the 32-bit expressions of the
code have these values is proved along the way, from `Memblock.WF`.
-/

namespace MoltarOS.Mm

open MoltarOS.Lib MoltarOS.Lib.Word MoltarOS.Libc

/-! ### Geometry -/

/-- The region given to `memheap_add_block` holds a header and a block, and does not run past
the top of the address space. -/
structure Memblock.WF (b : Memblock) : Prop where
  /-- Blocks have a size. -/
  blockPos : 0 < b.blockSize.toNat
  /-- There is room for a block. -/
  room : b.blockSize.toNat ≤ b.totalSize.toNat
  /-- There are addresses for all of it. -/
  fits : b.addr.toNat + 20 + b.totalSize.toNat ≤ 2 ^ 32

namespace Memblock

/-- The number of blocks. -/
def count (b : Memblock) : ℕ := b.totalSize.toNat / b.blockSize.toNat

/-- The number of blocks the bitmap takes up. -/
def reserved (b : Memblock) : ℕ := b.count ⌈/⌉ b.blockSize.toNat

/-- Where block `0` is, and the bitmap. -/
def base (b : Memblock) : ℕ := b.addr.toNat + 20

/-- The end of the superblock is an address as well. -/
def Below (b : Memblock) : Prop := b.addr.toNat + 20 + b.totalSize.toNat < 2 ^ 32

variable {b : Memblock}

theorem WF.count_pos (h : b.WF) : 0 < b.count := Nat.div_pos h.room h.blockPos

theorem count_mul_le (b : Memblock) : b.count * b.blockSize.toNat ≤ b.totalSize.toNat :=
  Nat.div_mul_le_self _ _

theorem WF.count_add_le (h : b.WF) : b.count + b.blockSize.toNat ≤ b.totalSize.toNat + 1 := by
  have hmul := b.count_mul_le
  obtain ⟨c, hc⟩ := Nat.exists_eq_add_of_lt h.count_pos
  obtain ⟨s, hs⟩ := Nat.exists_eq_add_of_lt h.blockPos
  rw [hc, hs] at hmul ⊢
  have : (0 + c + 1) * (0 + s + 1) = c * s + c + s + 1 := by ring
  omega

theorem WF.count_le_mul (h : b.WF) : b.count ≤ b.reserved * b.blockSize.toNat := by
  rw [Nat.mul_comm]
  exact (ceilDiv_le_iff_le_mul h.blockPos).mp le_rfl

theorem WF.reserved_pos (h : b.WF) : 0 < b.reserved := by
  have h1 := h.count_le_mul
  have h2 := h.count_pos
  by_contra h0
  rw [Nat.eq_zero_of_not_pos h0, Nat.zero_mul] at h1
  omega

theorem WF.reserved_le (h : b.WF) : b.reserved ≤ b.count :=
  (ceilDiv_le_iff_le_mul h.blockPos).mpr (Nat.le_mul_of_pos_left _ h.blockPos)

theorem toNat_blockCount (b : Memblock) : (memblockGetBlockCount b).toNat = b.count :=
  UInt32.toNat_div _ _

theorem WF.toNat_bitmap (h : b.WF) : (memblockGetBitmap b).toNat = b.base := by
  have := h.fits
  have := h.room
  have := h.blockPos
  exact toNat_add_of_lt (show b.addr.toNat + 20 < 2 ^ 32 by omega)

/-- A block begins inside the superblock. -/
theorem start_mul_le {i : ℕ} (hi : i < b.count) :
    i * b.blockSize.toNat + b.blockSize.toNat ≤ b.totalSize.toNat := by
  calc i * b.blockSize.toNat + b.blockSize.toNat = (i + 1) * b.blockSize.toNat := by ring
    _ ≤ b.count * b.blockSize.toNat := Nat.mul_le_mul_right _ hi
    _ ≤ b.totalSize.toNat := b.count_mul_le

end Memblock

theorem toNat_CEILING {x y : UInt32} (hy : 0 < y.toNat) (h : x.toNat + y.toNat < 2 ^ 32) :
    (CEILING x y).toNat = x.toNat ⌈/⌉ y.toNat := by
  have hone : (1 : UInt32).toNat = 1 := rfl
  have hsum := toNat_add_of_lt h
  rw [CEILING, UInt32.toNat_div, toNat_sub_of_le (by omega), hsum, hone, Nat.ceilDiv_eq_add_pred_div]

/-! ### The bitmap in memory -/

section Entries

variable {m : Mem} {b : Memblock}

/-- The bytes of `b`'s bitmap. -/
def Memblock.InBitmap (b : Memblock) (a : UInt32) : Prop := b.base ≤ a.toNat ∧ a.toNat < b.base + b.count

/-- Writing a run of entries relabels that run. -/
theorem entry_memset (h : b.WF) {s : Seg} (hpos : 0 < s.len) (hs : s.start + s.len ≤ b.count) (v : UInt8)
    {k : ℕ} (hk : k < b.count) :
    entry (memset m (memblockGetBitmap b + UInt32.ofNat s.start) v (UInt32.ofNat s.len)) b k =
      relabel (entry m b) s v k := by
  have hfits := h.fits
  have hroom := h.count_add_le
  have hbase := h.toNat_bitmap
  have hblock := h.blockPos
  rw [Memblock.base] at hbase
  have hstart : (memblockGetBitmap b + UInt32.ofNat s.start).toNat = b.addr.toNat + 20 + s.start := by
    rw [toNat_add_ofNat (by omega), hbase]
  have hcell : (memblockGetBitmap b + UInt32.ofNat k).toNat = b.addr.toNat + 20 + k := by
    rw [toNat_add_ofNat (by omega), hbase]
  have hiff : dist (memblockGetBitmap b + UInt32.ofNat s.start) (memblockGetBitmap b + UInt32.ofNat k) < s.len ↔
      k ∈ s := by
    rw [dist_lt_iff (by omega), hstart, hcell, Seg.mem_iff]
    omega
  rw [entry, memset_apply, toNat_ofNat_of_lt (by omega), relabel]
  simp only [hiff]
  rfl

/-- Writing entries writes no other byte. -/
theorem memset_of_not_inBitmap (h : b.WF) {s : Seg} (hpos : 0 < s.len) (hs : s.start + s.len ≤ b.count)
    (v : UInt8) {a : UInt32} (ha : ¬ b.InBitmap a) :
    memset m (memblockGetBitmap b + UInt32.ofNat s.start) v (UInt32.ofNat s.len) a = m a := by
  have hfits := h.fits
  have hroom := h.count_add_le
  have hbase := h.toNat_bitmap
  have hblock := h.blockPos
  rw [Memblock.InBitmap, Memblock.base] at ha
  rw [Memblock.base] at hbase
  have hstart : (memblockGetBitmap b + UInt32.ofNat s.start).toNat = b.addr.toNat + 20 + s.start := by
    rw [toNat_add_ofNat (by omega), hbase]
  rw [memset_apply, toNat_ofNat_of_lt (by omega), if_neg]
  rw [dist_lt_iff (by omega), hstart]
  omega

/-- Entries are unchanged where the bytes of the bitmap are. -/
theorem entry_congr (h : b.WF) {m' : Mem} (heq : ∀ a, b.InBitmap a → m' a = m a) {k : ℕ} (hk : k < b.count) :
    entry m' b k = entry m b k := by
  have hfits := h.fits
  have hroom := h.count_add_le
  have hbase := h.toNat_bitmap
  have hpos := h.blockPos
  rw [Memblock.base] at hbase
  apply heq
  rw [Memblock.InBitmap, Memblock.base, toNat_add_ofNat (by omega), hbase]
  omega

end Entries

/-! ### The invariant of a superblock -/

/-- The bitmap of `b` holds its own reserved entries and then exactly the segments `segs`. -/
structure BlockInv (m : Mem) (b : Memblock) (segs : Set Seg) : Prop where
  /-- The region was large enough. -/
  wf : b.WF
  /-- The blocks of the bitmap itself are in use. -/
  pre : ∀ k < b.reserved, entry m b k = 1
  /-- The rest are the segments. -/
  tiles : Tiles (entry m b) FREE b.reserved b.count segs
  /-- `used` counts the entries in use. -/
  used : b.used.toNat = usedCells (entry m b) FREE b.count

namespace BlockInv

variable {m m' : Mem} {b b' : Memblock} {segs : Set Seg}

/-- Nothing outside the bitmap matters. -/
theorem congr (h : BlockInv m b segs) (heq : ∀ a, b.InBitmap a → m' a = m a) : BlockInv m' b segs where
  wf := h.wf
  pre k hk := by
    have := h.wf.reserved_le
    rw [entry_congr h.wf heq (by omega)]
    exact h.pre k hk
  tiles := h.tiles.congr fun k hk => entry_congr h.wf heq hk
  used := by
    rw [usedCells_congr fun k hk => entry_congr h.wf heq hk]
    exact h.used

theorem used_pos (h : BlockInv m b segs) : 0 < b.used.toNat := by
  rw [h.used, usedCells, Finset.card_pos]
  refine ⟨0, ?_⟩
  rw [Finset.mem_filter, Finset.mem_range, h.pre 0 h.wf.reserved_pos]
  exact ⟨h.wf.count_pos, by decide⟩

theorem used_le (h : BlockInv m b segs) : b.used.toNat ≤ b.count := by
  rw [h.used]
  exact usedCells_le _ _ _

/-- `used * block_size` does not wrap and stays within the superblock. -/
theorem used_mul_le (h : BlockInv m b segs) : b.used.toNat * b.blockSize.toNat ≤ b.totalSize.toNat :=
  (Nat.mul_le_mul_right _ h.used_le).trans b.count_mul_le

/-- The quick test compares with the bytes not in use. -/
theorem toNat_remaining (h : BlockInv m b segs) :
    (b.totalSize - b.used * b.blockSize).toNat = b.totalSize.toNat - b.used.toNat * b.blockSize.toNat := by
  have hle := h.used_mul_le
  have hlt := b.totalSize.toNat_lt
  have hmul := toNat_mul_of_lt (a := b.used) (b := b.blockSize) (by omega)
  rw [toNat_sub_of_le (by rw [hmul]; exact hle), hmul]

/-- A request that passes the quick test is rounded up without wrapping. -/
theorem toNat_blocksNeeded (h : BlockInv m b segs) {size : UInt32}
    (hfit : size ≤ b.totalSize - b.used * b.blockSize) :
    (CEILING size b.blockSize).toNat = size.toNat ⌈/⌉ b.blockSize.toNat := by
  rw [UInt32.le_iff_toNat_le, h.toNat_remaining] at hfit
  have hused : b.blockSize.toNat ≤ b.used.toNat * b.blockSize.toNat := Nat.le_mul_of_pos_left _ h.used_pos
  have hle := h.used_mul_le
  have hlt := b.totalSize.toNat_lt
  exact toNat_CEILING h.wf.blockPos (by omega)

end BlockInv

/-! ### Allocating -/

/-- The effect of an allocation of `size` bytes on a superblock: the run `s` of free
entries is claimed, and `p` is the address of its first block. -/
structure Claimed (m : Mem) (b : Memblock) (size p : UInt32) (m' : Mem) (b' : Memblock) (s : Seg) : Prop where
  /-- As many blocks as the request needs. -/
  len : s.len = size.toNat ⌈/⌉ b.blockSize.toNat
  /-- At least one. -/
  pos : 0 < s.len
  /-- The address of the first block. -/
  ptr : p.toNat = b.base + s.start * b.blockSize.toNat
  /-- Blocks of the superblock, after those of its bitmap. -/
  lo : b.reserved ≤ s.start
  /-- Blocks of the superblock. -/
  hi : s.start + s.len ≤ b.count
  /-- They were free. -/
  free : ∀ k ∈ s, entry m b k = FREE
  /-- No earlier run is long enough. -/
  first : ∀ j < s.start, ¬ RunAt m (memblockGetBitmap b) s.len b.count j
  /-- They are labelled with an identifier unlike those beside them; no other entry changes. -/
  label : ∃ id, id ≠ FREE ∧ id ≠ entry m b (s.start - 1) ∧ id ≠ entry m b (s.start + s.len) ∧
    ∀ k < b.count, entry m' b k = relabel (entry m b) s id k
  /-- Nothing outside the bitmap changes. -/
  frame : ∀ a, ¬ b.InBitmap a → m' a = m a
  /-- Only `used` changes in the header. -/
  header : b' = { b with used := b.used + UInt32.ofNat s.len }

/-- The address of a block does not wrap. -/
theorem Memblock.WF.toNat_blockAddr {b : Memblock} (h : b.WF) {i : ℕ} (hi : i < b.count) :
    (UInt32.ofNat i * b.blockSize + memblockGetBitmap b).toNat = b.base + i * b.blockSize.toNat := by
  have hroom := h.count_add_le
  have hfits := h.fits
  have hblock := h.blockPos
  have hi32 : (UInt32.ofNat i).toNat = i := toNat_ofNat_of_lt (by omega)
  have hstart := start_mul_le hi
  have hmul : (UInt32.ofNat i * b.blockSize).toNat = i * b.blockSize.toNat := by
    rw [toNat_mul_of_lt (by rw [hi32]; omega), hi32]
  rw [UInt32.add_comm, toNat_add_of_lt, hmul, h.toNat_bitmap]
  rw [hmul, h.toNat_bitmap, base]
  omega

/-- A run of free entries lies after the reserved ones. -/
theorem BlockInv.reserved_le_of_runAt {m : Mem} {b : Memblock} {segs : Set Seg} (h : BlockInv m b segs) {n i : ℕ}
    (hn : 0 < n) (hrun : RunAt m (memblockGetBitmap b) n b.count i) : b.reserved ≤ i := by
  by_contra hlt
  have hfree : entry m b i = FREE := hrun.2 0 hn
  rw [h.pre i (by omega)] at hfree
  exact absurd hfree (by decide)

/-- A request of a positive size needs a block. -/
theorem Memblock.WF.blocksNeeded_pos {b : Memblock} (h : b.WF) {size : UInt32} (hsize : 0 < size.toNat) :
    0 < size.toNat ⌈/⌉ b.blockSize.toNat := by
  by_contra h0
  have := (ceilDiv_le_iff_le_mul h.blockPos).mp (Nat.le_of_not_lt h0)
  omega

/-- Where the quick test passes, the scan looks for a run of at least one entry and returns the first one. -/
theorem BlockInv.findRun_ceiling {m : Mem} {b : Memblock} {segs : Set Seg} (h : BlockInv m b segs) {size : UInt32}
    (hsize : 0 < size.toNat) (hfit : size ≤ b.totalSize - b.used * b.blockSize) :
    0 < (CEILING size b.blockSize).toNat ∧
    FirstRun m (memblockGetBitmap b) (CEILING size b.blockSize).toNat b.count 0
      (findRun m (memblockGetBitmap b) (CEILING size b.blockSize) (memblockGetBlockCount b)
        (memblockGetBlockCount b).toNat 0) := by
  have hpos := h.wf.blocksNeeded_pos hsize
  rw [← h.toNat_blocksNeeded hfit] at hpos
  refine ⟨hpos, ?_⟩
  rw [← b.toNat_blockCount]
  exact @findRun_spec m (memblockGetBitmap b) _ _ hpos 0 _ (Nat.zero_le _) (by omega)

/-- So it is long enough for the request. -/
theorem BlockInv.findRun_first {m : Mem} {b : Memblock} {segs : Set Seg} (h : BlockInv m b segs) {size : UInt32}
    (hsize : 0 < size.toNat) (hfit : size ≤ b.totalSize - b.used * b.blockSize) :
    FirstRun m (memblockGetBitmap b) (size.toNat ⌈/⌉ b.blockSize.toNat) b.count 0
      (findRun m (memblockGetBitmap b) (CEILING size b.blockSize) (memblockGetBlockCount b)
        (memblockGetBlockCount b).toNat 0) := by
  rw [← h.toNat_blocksNeeded hfit]
  exact (h.findRun_ceiling hsize hfit).2

/-- What `memheap_alloc` does in the superblock that serves the request. -/
theorem BlockInv.claimed {m m' : Mem} {b b' : Memblock} {segs : Set Seg} {size p : UInt32} (h : BlockInv m b segs)
    (hsize : 0 < size.toNat) (ha : allocIn m size b = some (p, m', b')) : ∃ s, Claimed m b size p m' b' s := by
  rw [allocIn] at ha
  split_ifs at ha with hfit
  have hneeded := h.toNat_blocksNeeded hfit
  obtain ⟨hpos, hfound⟩ := h.findRun_ceiling hsize hfit
  generalize CEILING size b.blockSize = needed at ha hneeded hpos hfound
  rcases hfound with ⟨i, heq, -, hrun, hfirst⟩ | ⟨heq, -⟩
  swap
  · simp only [heq] at ha
    cases ha
  simp only [heq, Option.some.injEq, Prod.mk.injEq] at ha
  obtain ⟨rfl, rfl, rfl⟩ := ha
  have hin := hrun.1
  have hlo := h.reserved_le_of_runAt hpos hrun
  have hres := h.wf.reserved_pos
  -- the neighbours the identifier was chosen against
  have hpred : UInt32.ofNat i - 1 = UInt32.ofNat (i - 1) := by
    obtain ⟨j, rfl⟩ : ∃ j, i = j + 1 := ⟨i - 1, by omega⟩
    rw [ofNat_add_one, Nat.add_sub_cancel]
    grind
  have hsucc : UInt32.ofNat i + needed = UInt32.ofNat (i + needed.toNat) := by
    rw [UInt32.ofNat_add, UInt32.ofNat_toNat]
  rw [hpred, hsucc]
  obtain ⟨hid0, hid1, hid2⟩ := generateIdentifier_spec (m (memblockGetBitmap b + UInt32.ofNat (i - 1)))
    (m (memblockGetBitmap b + UInt32.ofNat (i + needed.toNat)))
  generalize generateIdentifier (m (memblockGetBitmap b + UInt32.ofNat (i - 1)))
    (m (memblockGetBitmap b + UInt32.ofNat (i + needed.toNat))) = id at hid0 hid1 hid2 ⊢
  let s : Seg := ⟨i, needed.toNat⟩
  have hm : memset m (memblockGetBitmap b + UInt32.ofNat i) id needed =
      memset m (memblockGetBitmap b + UInt32.ofNat s.start) id (UInt32.ofNat s.len) := by
    rw [UInt32.ofNat_toNat]
  rw [hm]
  refine ⟨s, hneeded, hpos, h.wf.toNat_blockAddr (by omega), hlo, hin, ?_, fun j hj => hfirst j (Nat.zero_le j) hj,
    ⟨id, hid0, hid1, hid2, fun k hk => entry_memset h.wf hpos hin id hk⟩,
    fun a hout => memset_of_not_inBitmap h.wf hpos hin id hout, ?_⟩
  · intro k hk
    obtain ⟨hk1, hk2⟩ : i ≤ k ∧ k < i + needed.toNat := hk
    obtain ⟨d, rfl⟩ := Nat.exists_eq_add_of_le hk1
    exact hrun.2 d (by omega)
  · rw [UInt32.ofNat_toNat]

/-- `used` grows by the number of blocks claimed. -/
theorem Claimed.toNat_used {m m' : Mem} {b b' : Memblock} {segs : Set Seg} {size p : UInt32} {s : Seg}
    (hc : Claimed m b size p m' b' s) (h : BlockInv m b segs) : b'.used.toNat = b.used.toNat + s.len := by
  obtain ⟨id, hid, -⟩ := hc.label
  have hcells := usedCells_fill hc.hi hc.free hid
  have hle := usedCells_le (relabel (entry m b) s id) FREE b.count
  have hroom := h.wf.count_add_le
  have hfits := h.wf.fits
  have hblock := h.wf.blockPos
  have hlen : (UInt32.ofNat s.len).toNat = s.len := toNat_ofNat_of_lt (by have := hc.hi; omega)
  rw [hc.header, toNat_add_of_lt, hlen]
  rw [hlen, h.used]
  omega

/-- **An allocation adds a segment.** -/
theorem Claimed.inv {m m' : Mem} {b b' : Memblock} {segs : Set Seg} {size p : UInt32} {s : Seg}
    (hc : Claimed m b size p m' b' s) (h : BlockInv m b segs) : BlockInv m' b' (insert s segs) := by
  have hused := hc.toNat_used h
  obtain ⟨id, hid, hprev, hnext, hlabel⟩ := hc.label
  have htiles := h.tiles.insert hc.pos hc.lo h.wf.reserved_pos hc.hi hc.free hid hprev fun _ => hnext
  have hcells := usedCells_fill hc.hi hc.free hid
  rw [hc.header] at hused ⊢
  refine ⟨⟨h.wf.blockPos, h.wf.room, h.wf.fits⟩, fun k hk => ?_, htiles.congr hlabel, ?_⟩
  · have hk' : k < b.reserved := hk
    refine (hlabel k (lt_of_lt_of_le hk' h.wf.reserved_le)).trans ?_
    rw [relabel_of_not_mem, h.pre k hk']
    have := hc.lo
    rw [Seg.mem_iff]
    omega
  · rw [hused, h.used, ← hcells]
    exact (usedCells_congr hlabel).symm

/-! ### Freeing -/

/-- `memheap_free`'s test whether the pointer is within the superblock. -/
def Memblock.Holds (b : Memblock) (p : UInt32) : Prop :=
  b.addr.toNat < p.toNat ∧ p.toNat < b.addr.toNat + 20 + b.totalSize.toNat

theorem Memblock.Below.holds_iff {b : Memblock} (h : b.Below) {p : UInt32} :
    (b.addr < p ∧ p < b.addr + sizeofMemblock + b.totalSize) ↔ b.Holds p := by
  have hheader : (b.addr + sizeofMemblock).toNat = b.addr.toNat + 20 :=
    toNat_add_of_lt (show b.addr.toNat + 20 < 2 ^ 32 from (Nat.le_add_right _ _).trans_lt h)
  rw [UInt32.lt_iff_toNat_lt, UInt32.lt_iff_toNat_lt, toNat_add_of_lt (by rw [hheader]; exact h), hheader,
    Memblock.Holds]

/-- It takes no pointer for one of a superblock that ends where the addresses do: the sum wraps to `0`. -/
theorem Memblock.WF.taken_iff {b : Memblock} (h : b.WF) {p : UInt32} :
    (b.addr < p ∧ p < b.addr + sizeofMemblock + b.totalSize) ↔ b.Below ∧ b.Holds p := by
  by_cases hlow : b.Below
  · rw [hlow.holds_iff, and_iff_right hlow]
  · refine iff_of_false (fun hcond => ?_) fun hcond => hlow hcond.1
    have hfits := h.fits
    have hroom := h.room
    have hblock := h.blockPos
    have hbase := h.toNat_bitmap
    rw [memblockGetBitmap, Memblock.base] at hbase
    rw [Memblock.Below] at hlow
    have hzero : (b.addr + sizeofMemblock + b.totalSize).toNat = 0 := by
      rw [UInt32.toNat_add, hbase]
      omega
    have hlt := hcond.2
    rw [UInt32.lt_iff_toNat_lt, hzero] at hlt
    exact Nat.not_lt_zero _ hlt

theorem freeIn_of_not_below {m : Mem} {b : Memblock} (h : b.WF) (hend : ¬ b.Below) (p : UInt32) :
    freeIn m p b = (m, b) := by
  rw [freeIn, if_neg fun hcond => hend (h.taken_iff.mp hcond).1]

theorem freeIn_of_not_holds {m : Mem} {b : Memblock} (h : b.WF) {p : UInt32} (hp : ¬ b.Holds p) :
    freeIn m p b = (m, b) := by
  rw [freeIn, if_neg fun hcond => hp (h.taken_iff.mp hcond).2]

/-- The effect of freeing the run `s` of a superblock. -/
structure Released (m : Mem) (b : Memblock) (s : Seg) (m' : Mem) (b' : Memblock) : Prop where
  /-- The run's entries become free, and no other entry changes. -/
  label : ∀ k < b.count, entry m' b k = relabel (entry m b) s FREE k
  /-- Nothing outside the bitmap changes. -/
  frame : ∀ a, ¬ b.InBitmap a → m' a = m a
  /-- Only `used` changes in the header. -/
  header : b' = { b with used := b.used - UInt32.ofNat s.len }

section Free

variable {m : Mem} {b : Memblock} {segs : Set Seg} {s : Seg} {p : UInt32}

/-- The address of a block lies in the superblock, past the header. -/
theorem Memblock.WF.holds_of_ptr (h : b.WF) {i : ℕ} (hi : i < b.count)
    (hp : p.toNat = b.base + i * b.blockSize.toNat) : b.Holds p := by
  have hstart := Memblock.start_mul_le hi
  have hblock := h.blockPos
  rw [Memblock.base] at hp
  constructor <;> omega

/-- The address of a block gives back its index. -/
theorem Memblock.WF.blockStart_eq (h : b.WF) {i : ℕ} (hi : i < b.count)
    (hp : p.toNat = b.base + i * b.blockSize.toNat) : (p - memblockGetBitmap b) / b.blockSize = UInt32.ofNat i := by
  have hbase := h.toNat_bitmap
  have hroom := h.count_add_le
  have hfits := h.fits
  have hblock := h.blockPos
  apply UInt32.toNat_inj.mp
  rw [UInt32.toNat_div, toNat_sub_of_le (by omega), hp, hbase, Nat.add_sub_cancel_left, Nat.mul_div_cancel _ hblock,
    toNat_ofNat_of_lt (by omega)]

/-- The clearing loop, begun at a run, stops at its end. -/
theorem BlockInv.freeLoop_end (h : BlockInv m b segs) (hs : s ∈ segs) :
    ∃ m', freeLoop (memblockGetBitmap b) (m (memblockGetBitmap b + UInt32.ofNat s.start)) (memblockGetBlockCount b)
      (memblockGetBlockCount b).toNat m (UInt32.ofNat s.start) = (m', UInt32.ofNat (s.start + s.len)) := by
  have hcount := b.toNat_blockCount
  have hhi := h.tiles.le_hi s hs
  exact ⟨_, freeLoop_spec (Nat.le_add_right _ _) (by omega) (fun k h1 h2 => h.tiles.const s hs k ⟨h1, h2⟩)
    (by rw [hcount]; exact h.tiles.next s hs) (by omega)⟩

/-- `memheap_free` of the address of block `off`, the identifier there being repeated up to entry `stop`. -/
theorem Memblock.WF.freeIn_eq (h : b.WF) (hlow : b.Below) {off stop : ℕ} (hoff : off < stop) (hstop : stop ≤ b.count)
    (hp : p.toNat = b.base + off * b.blockSize.toNat) (hid : ∀ k, off ≤ k → k < stop → entry m b k = entry m b off)
    (hend : stop < b.count → entry m b stop ≠ entry m b off) :
    freeIn m p b = (memset m (memblockGetBitmap b + UInt32.ofNat off) 0 (UInt32.ofNat (stop - off)),
      { b with used := b.used - UInt32.ofNat (stop - off) }) := by
  have hcount := b.toNat_blockCount
  have hi : off < b.count := Nat.lt_of_lt_of_le hoff hstop
  have hloop := @freeLoop_spec (memblockGetBitmap b) (entry m b off) (memblockGetBlockCount b) m off stop b.count
    hoff.le (by omega) hid (by rwa [hcount]) (by omega)
  have hsub : UInt32.ofNat stop - UInt32.ofNat off = UInt32.ofNat (stop - off) := by
    obtain ⟨d, rfl⟩ := Nat.exists_eq_add_of_lt hoff
    rw [Nat.add_assoc, Nat.add_sub_cancel_left, UInt32.ofNat_add]
    grind
  rw [freeIn, if_pos (hlow.holds_iff.mpr (h.holds_of_ptr hi hp))]
  simp only [entry] at hloop
  simp only [h.blockStart_eq hi hp, hcount, hloop, hsub]

/-- **What `memheap_free` does in the superblock that holds the pointer**: the identifier
repeats exactly up to the end of the run. -/
theorem BlockInv.freeIn_eq (h : BlockInv m b segs) (hlow : b.Below) (hs : s ∈ segs)
    (hp : p.toNat = b.base + s.start * b.blockSize.toNat) :
    Released m b s (freeIn m p b).1 (freeIn m p b).2 := by
  have hlen := h.tiles.pos s hs
  have hhi := h.tiles.le_hi s hs
  have heq := h.wf.freeIn_eq (m := m) hlow (show s.start < s.start + s.len by omega) hhi hp
    (fun k h1 h2 => h.tiles.const s hs k ⟨h1, h2⟩) (h.tiles.next s hs)
  rw [Nat.add_sub_cancel_left] at heq
  rw [heq]
  exact ⟨fun k hk => entry_memset h.wf hlen hhi 0 hk, fun a ha => memset_of_not_inBitmap h.wf hlen hhi 0 ha, rfl⟩

variable {m' : Mem} {b' : Memblock}

/-- `used` shrinks by the number of blocks of the run. -/
theorem Released.toNat_used (hr : Released m b s m' b') (h : BlockInv m b segs) (hs : s ∈ segs) :
    b'.used.toNat = b.used.toNat - s.len := by
  have hhi := h.tiles.le_hi s hs
  have hroom := h.wf.count_add_le
  have hfits := h.wf.fits
  have hblock := h.wf.blockPos
  have hlen : (UInt32.ofNat s.len).toNat = s.len := toNat_ofNat_of_lt (by omega)
  have hcells := usedCells_clear (entry m b) FREE hhi fun k hk => by
    rw [h.tiles.const s hs k hk]
    exact h.tiles.ne_free s hs
  rw [hr.header, toNat_sub_of_le, hlen]
  rw [hlen, h.used]
  omega

/-- **Freeing a run removes its segment**, and no other. -/
theorem Released.inv (hr : Released m b s m' b') (h : BlockInv m b segs) (hs : s ∈ segs) :
    BlockInv m' b' (segs \ {s}) := by
  have hused := hr.toNat_used h hs
  have htiles := h.tiles.remove hs
  have hcells := usedCells_clear (entry m b) FREE (h.tiles.le_hi s hs) fun k hk => by
    rw [h.tiles.const s hs k hk]
    exact h.tiles.ne_free s hs
  rw [hr.header] at hused ⊢
  refine ⟨⟨h.wf.blockPos, h.wf.room, h.wf.fits⟩, fun k hk => ?_, htiles.congr hr.label, ?_⟩
  · have hk' : k < b.reserved := hk
    refine (hr.label k (lt_of_lt_of_le hk' h.wf.reserved_le)).trans ?_
    rw [relabel_of_not_mem, h.pre k hk']
    have := h.tiles.lo_le s hs
    rw [Seg.mem_iff]
    omega
  · refine hused.trans ?_
    rw [h.used, ← hcells, Nat.add_sub_cancel]
    exact (usedCells_congr hr.label).symm

end Free

/-! ### Adding -/

/-- The superblock `memheap_add_block` makes. -/
def superblockOf (addr size blockSize : UInt32) : Memblock :=
  { addr := addr
    totalSize := size - sizeofMemblock
    used := CEILING ((size - sizeofMemblock) / blockSize) blockSize
    blockSize := blockSize }

section Added

variable {addr size blockSize : UInt32}

theorem toNat_totalSize_superblockOf (hroom : 20 + blockSize.toNat ≤ size.toNat) :
    (superblockOf addr size blockSize).totalSize.toNat = size.toNat - 20 :=
  toNat_sub_of_le (show 20 ≤ size.toNat from (Nat.le_add_right _ _).trans hroom)

/-- Where there is room for a header and a block, and addresses for all of it, the superblock is well formed. -/
theorem superblockOf_wf (hblock : 1 ≤ blockSize.toNat) (hroom : 20 + blockSize.toNat ≤ size.toNat)
    (hfits : addr.toNat + size.toNat ≤ 2 ^ 32) : (superblockOf addr size blockSize).WF := by
  have htotal : (superblockOf addr size blockSize).totalSize.toNat = size.toNat - 20 :=
    toNat_totalSize_superblockOf hroom
  refine ⟨hblock, ?_, ?_⟩
  · rw [htotal]
    change blockSize.toNat ≤ size.toNat - 20
    omega
  · rw [htotal]
    change addr.toNat + 20 + (size.toNat - 20) ≤ 2 ^ 32
    omega

theorem toNat_used_superblockOf (h : (superblockOf addr size blockSize).WF) :
    (superblockOf addr size blockSize).used.toNat = (superblockOf addr size blockSize).reserved := by
  have hcount : ((size - sizeofMemblock) / blockSize).toNat = (superblockOf addr size blockSize).count :=
    UInt32.toNat_div _ _
  have hroom := h.count_add_le
  have hfits := h.fits
  have hb : (superblockOf addr size blockSize).blockSize = blockSize := rfl
  have hpos : 0 < blockSize.toNat := h.blockPos
  rw [hb] at hroom
  have hceil := toNat_CEILING (x := (size - sizeofMemblock) / blockSize) hpos (by omega)
  rw [hcount] at hceil
  exact hceil

/-- What `memheap_add_block` writes, as runs of entries. -/
theorem memheapAddBlock_mem (h : (superblockOf addr size blockSize).WF) (m : Mem) (heap : MemHeap) :
    (memheapAddBlock m heap addr size blockSize).1 =
      memset (memset m (memblockGetBitmap (superblockOf addr size blockSize) + UInt32.ofNat 0) FREE
          (UInt32.ofNat (superblockOf addr size blockSize).count))
        (memblockGetBitmap (superblockOf addr size blockSize) + UInt32.ofNat 0) 1
        (UInt32.ofNat (superblockOf addr size blockSize).reserved) := by
  have hzero : memblockGetBitmap (superblockOf addr size blockSize) + UInt32.ofNat 0 =
      memblockGetBitmap (superblockOf addr size blockSize) := UInt32.add_zero _
  have hcount : UInt32.ofNat (superblockOf addr size blockSize).count =
      memblockGetBlockCount (superblockOf addr size blockSize) := by
    rw [← Memblock.toNat_blockCount, UInt32.ofNat_toNat]
  have hused : UInt32.ofNat (superblockOf addr size blockSize).reserved = (superblockOf addr size blockSize).used := by
    rw [← toNat_used_superblockOf h, UInt32.ofNat_toNat]
  rw [hzero, hcount, hused]
  rfl

/-- The bitmap after `memheap_add_block`: the reserved entries, and free ones. -/
theorem entry_memheapAddBlock (h : (superblockOf addr size blockSize).WF) (m : Mem) (heap : MemHeap) {k : ℕ}
    (hk : k < (superblockOf addr size blockSize).count) :
    entry (memheapAddBlock m heap addr size blockSize).1 (superblockOf addr size blockSize) k =
      if k < (superblockOf addr size blockSize).reserved then 1 else FREE := by
  have hle := h.reserved_le
  rw [memheapAddBlock_mem h,
    entry_memset (s := ⟨0, (superblockOf addr size blockSize).reserved⟩) h h.reserved_pos (by simpa using hle) 1 hk]
  by_cases hlt : k < (superblockOf addr size blockSize).reserved
  · rw [if_pos hlt, relabel_of_mem]
    exact ⟨Nat.zero_le k, by simpa [Seg.stop] using hlt⟩
  · rw [if_neg hlt, relabel_of_not_mem,
      entry_memset (s := ⟨0, (superblockOf addr size blockSize).count⟩) h h.count_pos (by simp) FREE hk, relabel_of_mem]
    · exact ⟨Nat.zero_le k, by simpa [Seg.stop] using hk⟩
    · rw [Seg.mem_iff]
      simpa using hlt

/-- `memheap_add_block` writes only the bitmap. -/
theorem memheapAddBlock_frame (h : (superblockOf addr size blockSize).WF) (m : Mem) (heap : MemHeap) {a : UInt32}
    (ha : ¬ (superblockOf addr size blockSize).InBitmap a) :
    (memheapAddBlock m heap addr size blockSize).1 a = m a := by
  have hle := h.reserved_le
  rw [memheapAddBlock_mem h,
    memset_of_not_inBitmap (s := ⟨0, (superblockOf addr size blockSize).reserved⟩) h h.reserved_pos
      (by simpa using hle) 1 ha,
    memset_of_not_inBitmap (s := ⟨0, (superblockOf addr size blockSize).count⟩) h h.count_pos (by simp) FREE ha]

/-- A new superblock holds no allocation. -/
theorem memheapAddBlock_inv (h : (superblockOf addr size blockSize).WF) (m : Mem) (heap : MemHeap) :
    BlockInv (memheapAddBlock m heap addr size blockSize).1 (superblockOf addr size blockSize) ∅ := by
  have hle := h.reserved_le
  have hpre : ∀ k < (superblockOf addr size blockSize).reserved,
      entry (memheapAddBlock m heap addr size blockSize).1 (superblockOf addr size blockSize) k = 1 := fun k hk => by
    rw [entry_memheapAddBlock h m heap (by omega), if_pos hk]
  have hfree : ∀ k, (superblockOf addr size blockSize).reserved ≤ k → k < (superblockOf addr size blockSize).count →
      entry (memheapAddBlock m heap addr size blockSize).1 (superblockOf addr size blockSize) k =
        FREE := fun k h1 h2 => by
    rw [entry_memheapAddBlock h m heap h2, if_neg (by omega)]
  refine ⟨h, hpre, Tiles.empty hfree, ?_⟩
  rw [toNat_used_superblockOf h, usedCells_prefix hle (fun k hk => by rw [hpre k hk]; decide) hfree]

end Added

/-- What `memheap_add_block` is given: room for a header and a block, and `gap` addresses behind the region; with one
of them its end is an address, with none it may end where the addresses do. -/
structure Region (gap : ℕ := 1) where
  /-- Where the region begins. -/
  addr : UInt32
  /-- Its size. -/
  size : UInt32
  /-- The size of the blocks it is to be divided into. -/
  blockSize : UInt32
  /-- Blocks have a size. -/
  blockPos : 1 ≤ blockSize.toNat
  /-- There is room for a header and a block. -/
  room : 20 + blockSize.toNat ≤ size.toNat
  /-- There are addresses for the region and the gap. -/
  fits : addr.toNat + size.toNat + gap ≤ 2 ^ 32

namespace Region

variable {gap : ℕ}

/-- The superblock `memheap_add_block` makes of a region. -/
def superblock (r : Region gap) : Memblock :=
  { addr := r.addr
    totalSize := r.size - sizeofMemblock
    used := CEILING ((r.size - sizeofMemblock) / r.blockSize) r.blockSize
    blockSize := r.blockSize }

theorem toNat_totalSize (r : Region gap) : r.superblock.totalSize.toNat = r.size.toNat - 20 :=
  toNat_totalSize_superblockOf r.room

theorem wf (r : Region gap) : r.superblock.WF := superblockOf_wf r.blockPos r.room (Nat.le_of_add_right_le r.fits)

theorem below (r : Region) : r.superblock.Below := by
  have h2 := r.room
  have h3 := r.fits
  have h4 := r.toNat_totalSize
  have ha : r.superblock.addr = r.addr := rfl
  rw [Memblock.Below, h4, ha]
  omega

/-- The memory after `memheap_add_block`. -/
def prepared (r : Region gap) (m : Mem) : Mem := (memheapAddBlock m [] r.addr r.size r.blockSize).1

theorem memheapAddBlock_eq (r : Region gap) (m : Mem) (heap : MemHeap) :
    memheapAddBlock m heap r.addr r.size r.blockSize =
      (r.prepared m, if r.addr = 0 then [] else r.superblock :: heap) := rfl

theorem toNat_used (r : Region gap) : r.superblock.used.toNat = r.superblock.reserved := toNat_used_superblockOf r.wf

theorem entry_prepared (r : Region gap) (m : Mem) {k : ℕ} (hk : k < r.superblock.count) :
    entry (r.prepared m) r.superblock k = if k < r.superblock.reserved then 1 else FREE :=
  entry_memheapAddBlock r.wf m [] hk

end Region

end MoltarOS.Mm
