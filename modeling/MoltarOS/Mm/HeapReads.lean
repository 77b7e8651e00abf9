import MoltarOS.Mm.HeapFit
import MoltarOS.Mm.HeapTrace
import MoltarOS.Mm.HeapWide

/-!
# What the heap reads of its bitmaps

The loops of `mm/heap.c` test the entry before the index: `bitmap[i + n] == FREE && n < blocks_needed && (i + n) <
block_count`. A scan that comes to the end of the bitmap reads the byte behind it, and so does `memheap_free` of a
run that ends there.

## What is proved

* `reads_in_range_iff` — in which runs no entry is read but those of the bitmap: where every request is served, or
  turned down, before the scan comes to the end, and no run that is freed has the last block.
-/

namespace MoltarOS.Mm

open MoltarOS.Lib MoltarOS.Lib.Word MoltarOS.Libc Reports

/-! ### The scan -/

section Scan

variable {m : Mem} {bitmap blocksNeeded blockCount : UInt32}

/-- The inner scan reads the entry at which it stops. -/
theorem inRange_freeRun {i n : UInt32} (hin : i.toNat + n.toNat ≤ blockCount.toNat) {fuel : ℕ}
    (hfuel : blocksNeeded.toNat ≤ n.toNat + fuel) :
    (Traced.freeRun m bitmap i blocksNeeded blockCount (fuel + 1) n).AllEvents HeapEvent.InRange ↔
      i.toNat + (freeRun m bitmap i blocksNeeded blockCount fuel n).toNat < blockCount.toNat := by
  have hcount := blockCount.toNat_lt
  induction fuel generalizing n with
  | zero =>
    have hidx : (i + n).toNat = i.toNat + n.toNat := toNat_add_of_lt (by omega)
    have hend : ¬ n < blocksNeeded := by
      rw [UInt32.lt_iff_toNat_lt]
      omega
    rw [Traced.freeRun, freeRun]
    simp only [allEvents_bind, allEvents_add, allEvents_readEntry, allEvents_pure, value_add,
      HeapEvent.InRange, hidx, hend, and_false, if_false, true_and, and_true]
  | succ fuel ih =>
    have hidx : (i + n).toNat = i.toNat + n.toNat := toNat_add_of_lt (by omega)
    rw [Traced.freeRun, freeRun]
    simp only [allEvents_bind, allEvents_add, allEvents_readEntry, value_add, value_readEntry, HeapEvent.InRange,
      hidx, true_and]
    by_cases hgo : m (bitmap + (i + n)) = FREE ∧ n < blocksNeeded
    · rw [if_pos hgo]
      simp only [allEvents_bind, allEvents_add, value_add, HeapEvent.InRange, true_and]
      by_cases hlt : i + n < blockCount
      · have hlt' := UInt32.lt_iff_toNat_lt.mp hlt
        have hnext := toNat_add_one_of_lt hgo.2
        rw [hidx] at hlt'
        rw [if_pos hlt, if_pos ⟨hgo.1, hgo.2, hlt⟩]
        simp only [allEvents_bind, allEvents_add, value_add, HeapEvent.InRange, true_and]
        exact (and_iff_right hlt').trans (ih (by omega) (by omega))
      · rw [if_neg hlt, if_neg fun h => hlt h.2.2]
        exact and_iff_left (allEvents_pure n)
    · rw [if_neg hgo, if_neg fun h => hgo ⟨h.1, h.2.1⟩]
      exact and_iff_left (allEvents_pure n)

/-- A scan from entry `i₀` stays off the end: the last entry is in use, or a run that is long enough ends before it. -/
def ScanStops (m : Mem) (bitmap : UInt32) (n count i₀ : ℕ) : Prop :=
  i₀ < count → m (bitmap + UInt32.ofNat (count - 1)) = FREE → ∃ j, i₀ ≤ j ∧ RunAt m bitmap n count j ∧ j + n < count

/-- Where the free entries from `i` on come to the end, it stops before. -/
theorem ScanStops.exists_run {n count i₀ i k : ℕ} (h : ScanStops m bitmap n count i₀) (hi : i₀ ≤ i) (hpos : 0 < k)
    (hall : ∀ d < k, m (bitmap + UInt32.ofNat (i + d)) = FREE) (hend : i + k = count) :
    ∃ j, i₀ ≤ j ∧ RunAt m bitmap n count j ∧ j + n < count := by
  refine h (by omega) ?_
  rw [show count - 1 = i + (k - 1) by omega]
  exact hall (k - 1) (by omega)

/-- Entries at which no run begins do not matter. -/
theorem scanStops_skip {n count i₀ i₁ : ℕ} (hle : i₀ ≤ i₁) (hlt : i₁ < count)
    (hskip : ∀ j, i₀ ≤ j → j < i₁ → ¬ RunAt m bitmap n count j) :
    ScanStops m bitmap n count i₀ ↔ ScanStops m bitmap n count i₁ := by
  constructor
  · intro h _ hlast
    obtain ⟨j, hj, hrun, hend⟩ := h (by omega) hlast
    exact ⟨j, Nat.not_lt.mp fun hlt' => hskip j hj hlt' hrun, hrun, hend⟩
  · intro h _ hlast
    obtain ⟨j, hj, hrun, hend⟩ := h hlt hlast
    exact ⟨j, hle.trans hj, hrun, hend⟩

/-- Begun at a run that is long enough, the scan stops at its end. -/
theorem RunAt.scanStops_iff {n count i₀ : ℕ} (hpos : 0 < n) (hrun : RunAt m bitmap n count i₀) :
    ScanStops m bitmap n count i₀ ↔ i₀ + n < count := by
  have hin := hrun.1
  constructor
  · intro hstops
    by_contra hend
    obtain ⟨j, hj, -, hjend⟩ := hstops.exists_run le_rfl hpos hrun.2 (by omega)
    omega
  · exact fun hend _ _ => ⟨i₀, le_rfl, hrun, hend⟩

/-- Begun at `k` free entries, which are too few, it goes on behind them, if there are entries behind them. -/
theorem scanStops_short {n count i₀ k : ℕ} (hpos : 0 < k) (hk : k < n) (hin : i₀ + k ≤ count)
    (hall : ∀ d < k, m (bitmap + UInt32.ofNat (i₀ + d)) = FREE)
    (hstop : i₀ + k = count ∨ m (bitmap + UInt32.ofNat (i₀ + k)) ≠ FREE) :
    ScanStops m bitmap n count i₀ ↔ i₀ + k < count ∧ ScanStops m bitmap n count (i₀ + k) := by
  by_cases hend : i₀ + k < count
  · rw [and_iff_right hend]
    exact scanStops_skip (Nat.le_add_right _ _) hend fun j => not_runAt_of_stop hstop hk
  · refine iff_of_false (fun hstops => ?_) fun h => hend h.1
    obtain ⟨j, hj, -, hjend⟩ := hstops.exists_run le_rfl hpos hall (by omega)
    omega

/-- Begun at an entry in use, it goes on at the next. -/
theorem scanStops_used {n count i₀ : ℕ} (hpos : 0 < n) (hlt : i₀ < count)
    (hused : m (bitmap + UInt32.ofNat i₀) ≠ FREE) :
    ScanStops m bitmap n count i₀ ↔ ScanStops m bitmap n count (i₀ + 1) := by
  by_cases hend : i₀ + 1 < count
  · refine scanStops_skip (Nat.le_succ i₀) hend fun j hj hj' hrun => hused ?_
    obtain rfl : j = i₀ := by omega
    simpa using hrun.2 0 hpos
  · refine iff_of_true (fun _ hlast => absurd ?_ hused) fun h => absurd h hend
    rwa [show count - 1 = i₀ by omega] at hlast

/-- **The scan** reads an entry that is not there exactly if it comes to a run of free entries at the end. -/
theorem inRange_findRun (hpos : 0 < blocksNeeded.toNat) {i₀ fuel : ℕ} (hle : i₀ ≤ blockCount.toNat)
    (hfuel : blockCount.toNat ≤ i₀ + fuel) :
    (Traced.findRun m bitmap blocksNeeded blockCount fuel (UInt32.ofNat i₀)).AllEvents HeapEvent.InRange ↔
      ScanStops m bitmap blocksNeeded.toNat blockCount.toNat i₀ := by
  have hcount := blockCount.toNat_lt
  induction fuel generalizing i₀ with
  | zero => exact iff_of_true (allEvents_pure _) fun hlt => absurd hlt (by omega)
  | succ fuel ih =>
    have hi : (UInt32.ofNat i₀).toNat = i₀ := toNat_ofNat_of_lt (by omega)
    have hval : (Traced.freeRun m bitmap (UInt32.ofNat i₀) blocksNeeded blockCount (blocksNeeded.toNat + 1) 0).value =
        freeRun m bitmap (UInt32.ofNat i₀) blocksNeeded blockCount blocksNeeded.toNat 0 :=
        value_freeRun (Nat.le_add_left _ _)
    rw [Traced.findRun]
    by_cases hlt : UInt32.ofNat i₀ < blockCount
    swap
    · rw [if_neg hlt]
      rw [UInt32.lt_iff_toNat_lt, hi] at hlt
      exact iff_of_true (allEvents_pure _) fun h => absurd h hlt
    have hlt' := UInt32.lt_iff_toNat_lt.mp hlt
    rw [hi] at hlt'
    rw [if_pos hlt]
    simp only [allEvents_bind, allEvents_readEntry, value_readEntry, HeapEvent.InRange, hi, true_and]
    rw [and_iff_right hlt']
    by_cases hfree : m (bitmap + UInt32.ofNat i₀) = FREE
    · obtain ⟨n, hn, hn1, hnle, hin, hall, hstop⟩ := freeRun_bounds hlt hfree hpos
      have hn32 : (UInt32.ofNat n).toNat = n := toNat_ofNat_of_lt (by omega)
      have hinner := @inRange_freeRun m bitmap blocksNeeded blockCount (UInt32.ofNat i₀) 0 (by rw [hi]; exact hle)
        blocksNeeded.toNat (Nat.le_add_left _ _)
      rw [hn, hn32, hi] at hinner
      rw [hi] at hin hall hstop
      rw [if_pos hfree]
      simp only [allEvents_bind, hinner, hval, hn]
      by_cases hfit : n = blocksNeeded.toNat
      · rw [if_pos (by rw [hfit, UInt32.ofNat_toNat]), and_iff_left (allEvents_pure _)]
        subst hfit
        exact (RunAt.scanStops_iff hpos ⟨hin, hall⟩).symm
      · have hne : UInt32.ofNat n ≠ blocksNeeded := fun he => hfit (by rw [← he, hn32])
        have hnext : UInt32.ofNat i₀ + (UInt32.ofNat n - 1) + 1 = UInt32.ofNat (i₀ + n) := by
          rw [UInt32.ofNat_add]
          grind
        rw [if_neg hne]
        simp only [allEvents_bind, allEvents_sub, allEvents_add, value_sub, value_add, HeapEvent.InRange,
          true_and, hnext]
        have hrest := @ih (i₀ + n) (by omega) (by omega)
        simp only [hrest]
        exact (scanStops_short hn1 (by omega) hin hall (hstop.resolve_left hfit)).symm
    · rw [if_neg hfree]
      simp only [allEvents_bind, allEvents_add, value_add, HeapEvent.InRange, true_and, ← ofNat_add_one]
      have hrest := @ih (i₀ + 1) (by omega) (by omega)
      simp only [hrest]
      exact (scanStops_used hpos hlt' hfree).symm

end Scan

/-! ### One superblock -/

/-- The scan for a request does not come to the end of the bitmap: the quick test fails, or the last entry is in use,
or a run that is long enough ends before it. -/
def Memblock.StopsShort (m : Mem) (b : Memblock) (size : UInt32) : Prop :=
  size ≤ b.totalSize - b.used * b.blockSize → entry m b (b.count - 1) = FREE →
    ∃ i, b.FitsAt m size i ∧ i + size.toNat ⌈/⌉ b.blockSize.toNat < b.count

section Superblock

variable {m : Mem} {b : Memblock} {segs : Set Seg}

theorem inRange_CEILING (x y : UInt32) : (Traced.CEILING x y).AllEvents HeapEvent.InRange := by
  simp only [Traced.CEILING, allEvents_bind, allEvents_add, allEvents_sub, allEvents_pure, HeapEvent.InRange, and_self]

/-- The neighbours that the identifier is chosen against. -/
theorem BlockInv.inRange_claim (h : BlockInv m b segs) {needed : UInt32} (hpos : 0 < needed.toNat) {i : ℕ}
    (hrun : RunAt m (memblockGetBitmap b) needed.toNat b.count i) :
    (Traced.claim m b (memblockGetBitmap b) needed (memblockGetBlockCount b) (UInt32.ofNat i)).AllEvents
      HeapEvent.InRange ↔ i + needed.toNat < b.count := by
  have hroom := h.wf.count_add_le
  have hblock := h.wf.blockPos
  have htop := h.wf.fits
  have hlo := h.reserved_le_of_runAt hpos hrun
  have hres := h.wf.reserved_pos
  have hin := hrun.1
  have hi : (UInt32.ofNat i).toNat = i := toNat_ofNat_of_lt (by omega)
  have hprev : (UInt32.ofNat i - 1).toNat = i - 1 := by rw [toNat_sub_one_of_pos (by omega), hi]
  have hnext : (UInt32.ofNat i + needed).toNat = i + needed.toNat := by rw [toNat_add_of_lt (by omega), hi]
  simp only [Traced.claim, allEvents_bind, allEvents_sub, allEvents_add, allEvents_mul, allEvents_readEntry,
    allEvents_bitmap, allEvents_pure, value_sub, value_add, HeapEvent.InRange, hprev, hnext, b.toNat_blockCount,
    true_and, and_true]
  exact and_iff_right (by omega)

/-- **A request** reads entries only, in a superblock, exactly if the scan does not come to the end. -/
theorem BlockInv.inRange_allocIn (h : BlockInv m b segs) {size : UInt32} (hsize : 0 < size.toNat) :
    (Traced.allocIn m size b).AllEvents HeapEvent.InRange ↔ b.StopsShort m size := by
  have hcount := b.toNat_blockCount
  have hcpos := h.wf.count_pos
  rw [Traced.allocIn]
  simp only [allEvents_bind, allEvents_mul, allEvents_sub, value_mul, value_sub, HeapEvent.InRange, true_and]
  by_cases hfit : size ≤ b.totalSize - b.used * b.blockSize
  swap
  · rw [if_neg hfit]
    exact iff_of_true (allEvents_pure _) fun h => absurd h hfit
  have hneeded := h.toNat_blocksNeeded hfit
  obtain ⟨hpos, hfound⟩ := h.findRun_ceiling hsize hfit
  have hscan := @inRange_findRun m (memblockGetBitmap b) (CEILING size b.blockSize) (memblockGetBlockCount b) hpos 0
    (memblockGetBlockCount b).toNat (Nat.zero_le _) (by omega)
  rw [hcount] at hscan
  have hstops : ScanStops m (memblockGetBitmap b) (CEILING size b.blockSize).toNat b.count 0 ↔ b.StopsShort m size := by
    rw [Memblock.StopsShort, ScanStops, hneeded]
    constructor
    · intro hs _ hlast
      obtain ⟨j, -, hrun, hend⟩ := hs hcpos hlast
      exact ⟨j, hrun, hend⟩
    · intro hs _ hlast
      obtain ⟨j, hrun, hend⟩ := hs hfit hlast
      exact ⟨j, Nat.zero_le j, hrun, hend⟩
  rw [if_pos hfit]
  simp only [allEvents_bind, allEvents_bitmap, value_CEILING, value_bitmap, value_findRun, HeapEvent.InRange,
    true_and, hcount]
  rw [and_iff_right (inRange_CEILING _ _)]
  rcases hfound with ⟨i, heq, -, hrun, hfirst⟩ | ⟨heq, -⟩
  · rw [hcount] at heq
    simp only [heq, allEvents_bind, allEvents_pure, and_true]
    refine (and_congr hscan (h.inRange_claim hpos hrun)).trans (Iff.trans (and_iff_left_of_imp fun hs => ?_) hstops)
    -- the run that is found is the first, so that it ends before the last entry as well
    by_contra hend
    have hin := hrun.1
    obtain ⟨j, -, hrun', hend'⟩ := hs.exists_run (Nat.zero_le i) hpos hrun.2 (by omega)
    exact hfirst j (Nat.zero_le j) (by omega) hrun'
  · rw [hcount] at heq
    simp only [heq]
    exact (and_iff_left (allEvents_pure _)).trans (hscan.trans hstops)

/-- The clearing loop reads the entry at which it stops. -/
theorem inRange_freeLoop {bitmap blockCount : UInt32} {id : UInt8} {off : UInt32} {fuel : ℕ}
    (hfuel : blockCount.toNat ≤ off.toNat + fuel) :
    (Traced.freeLoop bitmap id blockCount (fuel + 1) m off).AllEvents HeapEvent.InRange ↔
      (freeLoop bitmap id blockCount fuel m off).2.toNat < blockCount.toNat := by
  have hcount := blockCount.toNat_lt
  induction fuel generalizing m off with
  | zero =>
    have hend : ¬ off < blockCount := by
      rw [UInt32.lt_iff_toNat_lt]
      omega
    rw [Traced.freeLoop, freeLoop]
    simp only [allEvents_bind, allEvents_readEntry, allEvents_pure, HeapEvent.InRange, hend,
      and_false, if_false, true_and, and_true]
  | succ fuel ih =>
    rw [Traced.freeLoop, freeLoop]
    simp only [allEvents_bind, allEvents_readEntry, value_readEntry, HeapEvent.InRange, true_and]
    by_cases hgo : m (bitmap + off) = id ∧ off < blockCount
    · have hlt := UInt32.lt_iff_toNat_lt.mp hgo.2
      have hnext := toNat_add_one_of_lt hgo.2
      rw [if_pos hgo, if_pos hgo]
      simp only [allEvents_bind, allEvents_add, value_add, HeapEvent.InRange, true_and]
      exact (and_iff_right hlt).trans (ih (by omega))
    · rw [if_neg hgo, if_neg hgo]
      exact and_iff_left (allEvents_pure _)

/-- **A run that is freed** reads entries only, exactly if it does not have the last block. -/
theorem BlockInv.inRange_freeIn (h : BlockInv m b segs) (hlow : b.Below) {s : Seg} (hs : s ∈ segs) {p : UInt32}
    (hp : p.toNat = b.base + s.start * b.blockSize.toNat) :
    (Traced.freeIn m p b).AllEvents HeapEvent.InRange ↔ s.start + s.len < b.count := by
  have hroom := h.wf.count_add_le
  have hblock := h.wf.blockPos
  have htop := h.wf.fits
  have hcount := b.toNat_blockCount
  have hlen := h.tiles.pos s hs
  have hhi := h.tiles.le_hi s hs
  have hstart := h.wf.blockStart_eq (show s.start < b.count by omega) hp
  obtain ⟨m', hloop⟩ := h.freeLoop_end hs
  have hreads := @inRange_freeLoop m (memblockGetBitmap b) (memblockGetBlockCount b)
    (m (memblockGetBitmap b + UInt32.ofNat s.start))
    (UInt32.ofNat s.start) (memblockGetBlockCount b).toNat (Nat.le_add_left _ _)
  have hoff : (UInt32.ofNat s.start).toNat = s.start := toNat_ofNat_of_lt (by omega)
  have hstop : (UInt32.ofNat (s.start + s.len)).toNat = s.start + s.len := toNat_ofNat_of_lt (by omega)
  rw [hloop, hstop, hcount] at hreads
  obtain ⟨hlo, hend⟩ := hlow.holds_iff.mpr (h.wf.holds_of_ptr (show s.start < b.count by omega) hp)
  rw [Traced.freeIn, if_pos hlo]
  simp only [allEvents_bind, allEvents_add, value_add, HeapEvent.InRange, true_and]
  rw [if_pos hend]
  simp only [Traced.giveBack, allEvents_bind, allEvents_sub, allEvents_readEntry, allEvents_bitmap,
    allEvents_pure, value_bitmap, value_sub, value_readEntry, HeapEvent.InRange, hstart, hoff, hcount,
    true_and, and_true]
  exact (and_iff_right (by omega)).trans hreads

/-- Where the pointer is not taken for one of the superblock, nothing is read. -/
theorem passed_of_not_taken (h : b.WF) {p : UInt32} (hp : ¬ (b.Below ∧ b.Holds p)) : Passed HeapEvent.InRange p b := by
  rw [← h.taken_iff] at hp
  refine fun m => ⟨by rw [freeIn, if_neg hp], ?_⟩
  rw [Traced.freeIn]
  by_cases hlo : b.addr < p
  · rw [if_pos hlo]
    simp only [allEvents_bind, allEvents_add, value_add, HeapEvent.InRange, true_and]
    rw [if_neg fun hhi => hp ⟨hlo, hhi⟩]
    exact allEvents_pure _
  · rw [if_neg hlo]
    exact allEvents_pure _

end Superblock

/-! ### The heap -/

section Heap

variable {sites : List Memblock} {m : Mem} {heap : MemHeap} {held : List Alloc}

/-- `memheap_alloc` tries one superblock after another. -/
theorem Superblocks.inRange_memheapAlloc (h : Superblocks sites m heap held) {size : UInt32} (hsize : 0 < size.toNat) :
    (Traced.memheapAlloc m size heap).AllEvents HeapEvent.InRange ↔
      ∀ pre b post, heap = pre ++ b :: post → (∀ c ∈ pre, ¬ c.HasRoom m size) → b.StopsShort m size := by
  rw [allEvents_memheapAlloc]
  refine forall_congr' fun pre => forall_congr' fun b => forall_congr' fun post => imp_congr_right fun hheap => ?_
  have hmem : ∀ c, c ∈ pre ∨ c = b → c ∈ heap := fun c hc => by
    rw [hheap, List.mem_append, List.mem_cons]
    exact hc.imp_right Or.inl
  rw [(h.inv b (hmem b (Or.inr rfl))).inRange_allocIn hsize]
  refine imp_congr_left (forall_congr' fun c => imp_congr_right fun hc => ?_)
  exact (h.inv c (hmem c (Or.inl hc))).allocIn_eq_none_iff hsize

/-- `memheap_free` reads in the superblock of the allocation, if it takes the pointer for one of it. -/
theorem Superblocks.inRange_memheapFree (h : Superblocks sites m heap held) {x : Alloc} (hx : x ∈ held) :
    (Traced.memheapFree m x.ptr heap).AllEvents HeapEvent.InRange ↔
      ∀ b ∈ heap, b.Below → ∀ t, Placed b x t → t.start + t.len < b.count := by
  obtain ⟨hpos, c, hc, t, hxt⟩ := h.placed x hx
  by_cases hin : ∃ b ∈ heap, b.Below ∧ b.Holds x.ptr
  · obtain ⟨b, hb, hlow, hbx⟩ := hin
    have hinv := h.inv b hb
    have hbt : Placed b x t := (h.site_of_holds hb hc hpos hxt hbx).placed_iff.mpr hxt
    obtain ⟨pre, post, hheap⟩ := List.append_of_mem hb
    obtain ⟨hpre, hpost⟩ := h.others_not_holds hheap hbx
    have hreads : (Traced.memheapFree m x.ptr heap).AllEvents HeapEvent.InRange ↔ t.start + t.len < b.count := by
      rw [hheap, allEvents_memheapFree_append, hinv.inRange_freeIn hlow ⟨x, hx, hbt⟩ hbt.ptr]
      · exact fun d hd => passed_of_not_taken (hpre d hd).1 fun htaken => (hpre d hd).2 htaken.2
      · exact fun d hd => passed_of_not_taken (hpost d hd).1 fun htaken => (hpost d hd).2 htaken.2
    rw [hreads]
    constructor
    · intro hend d hd _ u hdu
      obtain rfl : d = b := by
        by_contra hne
        exact h.not_placed hb hd (Ne.symm hne) hpos hbt hdu
      rw [hdu.start_eq hbt hinv.wf rfl, hdu.len, ← hbt.len]
      exact hend
    · exact fun hall => hall b hb hlow t hbt
  · refine iff_of_true (allEvents_memheapFree_of_passed fun d hd => ?_) fun b hb hlow u hbu => ?_
    · exact passed_of_not_taken (h.inv d hd).wf fun htaken => hin ⟨d, hd, htaken⟩
    · exact absurd ⟨b, hb, hlow, hbu.holds (h.inv b hb).wf hpos⟩ hin

end Heap

/-! ### Runs -/

/-- An operation reads entries only that there are. -/
def HeapState.ReadsInRange (s : WideState) : WideOp → Prop
  | .alloc size => (Traced.memheapAlloc s.mem size s.heap).AllEvents HeapEvent.InRange
  | .free p => (Traced.memheapFree s.mem p s.heap).AllEvents HeapEvent.InRange
  | .add _ => True
  | .write _ _ => True

/-- An operation keeps off the end of the bitmaps: in each superblock that a request comes to, the scan stops short
of it, and a run that is given back does not have the last block. -/
def HeapState.KeepsOff (s : WideState) : WideOp → Prop
  | .alloc size => ∀ pre b post, s.heap = pre ++ b :: post → (∀ c ∈ pre, ¬ c.HasRoom s.mem size) →
      b.StopsShort s.mem size
  | .free p => ∀ x ∈ s.live, x.ptr = p → ∀ b ∈ s.heap, b.Below → ∀ t, Placed b x t → t.start + t.len < b.count
  | .add _ => True
  | .write _ _ => True

theorem HeapState.WideInv.readsInRange_iff {s t : WideState} {op : WideOp} (h : s.WideInv)
    (hs : wideMachine.step s op = some t) :
    s.ReadsInRange op ↔ s.KeepsOff op := by
  obtain ⟨held, hheld, hlive⟩ := h
  cases op with
  | add r => exact Iff.rfl
  | alloc size =>
    simp only [heapMachine, HeapState.step] at hs
    split_ifs at hs with hsize
    exact hheld.inRange_memheapAlloc hsize
  | free p =>
    simp only [heapMachine, HeapState.step] at hs
    split_ifs at hs with hp
    constructor
    · rintro hreads x hx rfl
      exact (hheld.inRange_memheapFree (hlive x hx)).mp hreads
    · obtain ⟨x, hx, rfl⟩ := hp
      exact fun hall => (hheld.inRange_memheapFree (hlive x hx)).mpr (hall x hx rfl)
  | write a v => exact Iff.rfl

/-- **Entries only are read exactly if the operations keep off the end**: in every run, for every region, request and
live pointer. -/
theorem reads_in_range_iff {m : Mem} {ops : List WideOp} {s : WideState}
    (h : wideMachine.run (HeapState.init m) ops = some s) :
    wideMachine.Each HeapState.ReadsInRange (HeapState.init m) ops ↔
    wideMachine.Each HeapState.KeepsOff (HeapState.init m) ops :=
  wideMachine.each_congr (I := HeapState.WideInv) (fun _ _ _ hinv hs => hinv.readsInRange_iff hs)
    (fun _ _ _ hinv hs _ => wideInv_step hinv hs) (wideInv_init m) h

/-- Four blocks of eight bytes, the first for the bitmap. -/
def fourBlocks : WideRegion := ⟨0x1000, 52, 8, by decide, by decide, by decide⟩

theorem reads_in_range_sample : ∃ s,
    wideMachine.run (HeapState.init fun _ => 0) [.add fourBlocks, .alloc 8, .free 0x101C] = some s ∧
    (wideMachine.Each HeapState.ReadsInRange (HeapState.init fun _ => 0) [.add fourBlocks, .alloc 8, .free 0x101C] ↔
      wideMachine.Each HeapState.KeepsOff (HeapState.init fun _ => 0) [.add fourBlocks, .alloc 8, .free 0x101C]) := by
  have hrun : (wideMachine.run (HeapState.init fun _ => 0) [.add fourBlocks, .alloc 8, .free 0x101C]).isSome := by
    decide +kernel
  obtain ⟨s, hs⟩ := Option.isSome_iff_exists.mp hrun
  exact ⟨s, hs, reads_in_range_iff hs⟩

/-- Where all that is left is asked for, the byte behind the bitmap is read. -/
theorem reads_behind : ∃ s, wideMachine.run (HeapState.init fun _ => 0) [.add fourBlocks, .alloc 24] = some s ∧
    ¬ wideMachine.Each HeapState.ReadsInRange (HeapState.init fun _ => 0) [.add fourBlocks, .alloc 24] := by
  have hrun : (wideMachine.run (HeapState.init fun _ => 0) [.add fourBlocks, .alloc 24]).isSome := by
    decide +kernel
  obtain ⟨s, hs⟩ := Option.isSome_iff_exists.mp hrun
  obtain ⟨t, ht, -⟩ := wideMachine.run_cons.mp hs
  have hreads : ∀ t ∈ wideMachine.step (HeapState.init fun _ => 0) (.add fourBlocks),
      ¬ (Traced.memheapAlloc t.mem 24 t.heap).AllEvents HeapEvent.InRange := by
    decide +kernel
  exact ⟨s, hs, fun heach => hreads t ht (heach.2 t ht).1⟩

end MoltarOS.Mm
