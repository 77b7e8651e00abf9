import MoltarOS.Mm.HeapFit
import MoltarOS.Mm.HeapTrace

/-!
# No expression of the heap wraps

An index stays within the bitmap, an address within the superblock, and what is taken away from a counter was
counted: each 32-bit expression that `mm/heap.c` evaluates has the value it has in the natural numbers, because of a
test before it or of what the invariant says.

## What is proved

* `heap_exact` — in every state of every run, for every region, every request and every live pointer.
-/

namespace MoltarOS.Mm

open MoltarOS.Lib MoltarOS.Lib.Word MoltarOS.Libc Reports

/-! ### The scan -/

section Scan

variable {m : Mem} {bitmap blocksNeeded blockCount : UInt32}

theorem exact_freeRun (hfits : bitmap.toNat + blockCount.toNat < 2 ^ 32) {i n : UInt32}
    (hin : i.toNat + n.toNat ≤ blockCount.toNat)
    (fuel : ℕ) : (Traced.freeRun m bitmap i blocksNeeded blockCount fuel n).AllEvents HeapEvent.Exact := by
  induction fuel generalizing n with
  | zero => exact allEvents_pure n
  | succ fuel ih =>
    have hneeded := blocksNeeded.toNat_lt
    have hcount := blockCount.toNat_lt
    have hidx : (i + n).toNat = i.toNat + n.toNat := toNat_add_of_lt (by omega)
    rw [Traced.freeRun]
    simp only [allEvents_bind, allEvents_add, allEvents_readEntry, value_add, value_readEntry, HeapEvent.Exact, hidx]
    refine ⟨by omega, ⟨by omega, trivial⟩, ?_⟩
    split_ifs with hgo
    · have hlt := UInt32.lt_iff_toNat_lt.mp hgo.2
      have hnext := toNat_add_one_of_lt hgo.2
      simp only [allEvents_bind, allEvents_add, value_add, HeapEvent.Exact]
      refine ⟨by omega, ?_⟩
      split_ifs with hin'
      · rw [UInt32.lt_iff_toNat_lt, hidx] at hin'
        simp only [allEvents_bind, allEvents_add, value_add, HeapEvent.Exact, UInt32.toNat_one]
        exact ⟨by omega, ih (by omega)⟩
      · exact allEvents_pure n
    · exact allEvents_pure n

theorem exact_findRun (hfits : bitmap.toNat + blockCount.toNat < 2 ^ 32) (hpos : 0 < blocksNeeded.toNat) (fuel : ℕ)
    (i : UInt32) :
    (Traced.findRun m bitmap blocksNeeded blockCount fuel i).AllEvents HeapEvent.Exact := by
  induction fuel generalizing i with
  | zero => exact allEvents_pure _
  | succ fuel ih =>
    have hneeded := blocksNeeded.toNat_lt
    have hcount := blockCount.toNat_lt
    have hrun : (Traced.freeRun m bitmap i blocksNeeded blockCount (blocksNeeded.toNat + 1) 0).value =
        freeRun m bitmap i blocksNeeded blockCount blocksNeeded.toNat 0 := value_freeRun (Nat.le_add_left _ _)
    rw [Traced.findRun]
    by_cases hlt : i < blockCount
    swap
    · rw [if_neg hlt]
      exact allEvents_pure _
    have hi := UInt32.lt_iff_toNat_lt.mp hlt
    rw [if_pos hlt]
    simp only [allEvents_bind, allEvents_readEntry, value_readEntry]
    refine ⟨⟨?_, trivial⟩, ?_⟩
    · rw [HeapEvent.Exact]
      omega
    by_cases hfree : m (bitmap + i) = FREE
    · obtain ⟨n, hn, hn1, hle, hin, -, -⟩ := freeRun_bounds hlt hfree hpos
      have hn32 : (UInt32.ofNat n).toNat = n := toNat_ofNat_of_lt (by omega)
      have hskip : (UInt32.ofNat n - 1).toNat = n - 1 := by rw [toNat_sub_one_of_pos (by omega), hn32]
      have hsum : (i + (UInt32.ofNat n - 1)).toNat = i.toNat + (n - 1) := by rw [toNat_add_of_lt (by omega), hskip]
      rw [if_pos hfree]
      simp only [allEvents_bind, hrun, hn]
      refine ⟨exact_freeRun hfits (n := 0) hi.le _, ?_⟩
      split_ifs
      · exact allEvents_pure _
      · simp only [allEvents_bind, allEvents_sub, allEvents_add, value_sub, value_add, HeapEvent.Exact,
          hskip, hsum, UInt32.toNat_one]
        exact ⟨by omega, by omega, by omega, ih _⟩
    · rw [if_neg hfree]
      simp only [allEvents_bind, allEvents_add, HeapEvent.Exact, UInt32.toNat_one]
      exact ⟨by omega, ih _⟩

end Scan

/-! ### One superblock -/

section Superblock

variable {m : Mem} {b : Memblock} {segs : Set Seg}

/-- An entry's address is in the superblock, even that behind the last one's. -/
theorem Memblock.Below.bitmap_add_lt (hlow : b.Below) (h : b.WF) :
    (memblockGetBitmap b).toNat + (memblockGetBlockCount b).toNat < 2 ^ 32 := by
  have hroom := h.count_add_le
  have hblock := h.blockPos
  rw [Memblock.Below] at hlow
  rw [h.toNat_bitmap, b.toNat_blockCount, Memblock.base]
  omega

theorem exact_CEILING {x y : UInt32} (hy : 0 < y.toNat) (h : x.toNat + y.toNat < 2 ^ 32) :
    (Traced.CEILING x y).AllEvents HeapEvent.Exact := by
  simp only [Traced.CEILING, allEvents_bind, allEvents_add, allEvents_sub, allEvents_pure, value_add, HeapEvent.Exact,
    toNat_add_of_lt h, UInt32.toNat_one]
  exact ⟨h, by omega, trivial⟩

/-- `&sblock[1]`. -/
theorem exact_bitmap (h : b.WF) : (Traced.memblockGetBitmap b).AllEvents HeapEvent.Exact := by
  have hroom := h.room
  have hblock := h.blockPos
  have hfits := h.fits
  have hheader : sizeofMemblock.toNat = 20 := rfl
  rw [allEvents_bitmap, HeapEvent.Exact, hheader]
  omega

/-- The run that a scan has found is claimed. -/
theorem BlockInv.exact_claim (h : BlockInv m b segs) (hlow : b.Below) {needed : UInt32}
    (hpos : 0 < needed.toNat) {i : ℕ} (hrun : RunAt m (memblockGetBitmap b) needed.toNat b.count i) :
    (Traced.claim m b (memblockGetBitmap b) needed (memblockGetBlockCount b) (UInt32.ofNat i)).AllEvents
      HeapEvent.Exact := by
  have hroom := h.wf.count_add_le
  have hblock := h.wf.blockPos
  have hfits := hlow.bitmap_add_lt h.wf
  have htop := h.wf.fits
  have hbase := h.wf.toNat_bitmap
  have hcount := b.toNat_blockCount
  have hin := hrun.1
  have hlo := h.reserved_le_of_runAt hpos hrun
  have hres := h.wf.reserved_pos
  have hused := h.used_add_le hrun
  have hstart := Memblock.start_mul_le (show i < b.count by omega)
  have hi : (UInt32.ofNat i).toNat = i := toNat_ofNat_of_lt (by omega)
  have hprev : (UInt32.ofNat i - 1).toNat = i - 1 := by rw [toNat_sub_one_of_pos (by omega), hi]
  have hnext : (UInt32.ofNat i + needed).toNat = i + needed.toNat := by rw [toNat_add_of_lt (by omega), hi]
  have hoffset : (UInt32.ofNat i * b.blockSize).toNat = i * b.blockSize.toNat := by
    rw [toNat_mul_of_lt (by rw [hi]; omega), hi]
  rw [Memblock.Below] at hlow
  rw [Memblock.base] at hbase
  simp only [Traced.claim, allEvents_bind, allEvents_sub, allEvents_add, allEvents_mul, allEvents_readEntry,
    allEvents_pure, value_sub, value_add, value_mul, value_bitmap, HeapEvent.Exact, hprev, hnext, hoffset, hi,
    UInt32.toNat_one]
  refine ⟨by omega, ⟨by omega, trivial⟩, by omega, ⟨by omega, trivial⟩, by omega, by omega, by omega, ?_,
    by omega, trivial⟩
  exact exact_bitmap h.wf

theorem BlockInv.exact_allocIn (h : BlockInv m b segs) (hlow : b.Below) {size : UInt32} (hsize : 0 < size.toNat) :
    (Traced.allocIn m size b).AllEvents HeapEvent.Exact := by
  have hle := h.used_mul_le
  have hlt := b.totalSize.toNat_lt
  have htaken : (b.used * b.blockSize).toNat = b.used.toNat * b.blockSize.toNat := toNat_mul_of_lt (by omega)
  rw [Traced.allocIn]
  simp only [allEvents_bind, allEvents_mul, allEvents_sub, value_mul, value_sub, HeapEvent.Exact, htaken]
  refine ⟨by omega, hle, ?_⟩
  by_cases hfit : size ≤ b.totalSize - b.used * b.blockSize
  swap
  · rw [if_neg hfit]
    exact allEvents_pure _
  obtain ⟨hpos, hfound⟩ := h.findRun_ceiling hsize hfit
  rw [if_pos hfit]
  simp only [allEvents_bind, value_CEILING, value_bitmap, value_findRun]
  refine ⟨exact_CEILING h.wf.blockPos ?_, exact_bitmap h.wf, exact_findRun (hlow.bitmap_add_lt h.wf) hpos _ _, ?_⟩
  · rw [UInt32.le_iff_toNat_le, h.toNat_remaining] at hfit
    have hused : b.blockSize.toNat ≤ b.used.toNat * b.blockSize.toNat := Nat.le_mul_of_pos_left _ h.used_pos
    omega
  · rcases hfound with ⟨i, heq, -, hrun, -⟩ | ⟨heq, -⟩
    · simp only [heq, allEvents_bind, allEvents_pure, and_true]
      exact h.exact_claim hlow hpos hrun
    · simp only [heq, allEvents_pure]

/-! ### Giving back -/

theorem exact_freeLoop {bitmap blockCount : UInt32} {id : UInt8} (hfits : bitmap.toNat + blockCount.toNat < 2 ^ 32)
    {off : UInt32} (hoff : off.toNat ≤ blockCount.toNat) (fuel : ℕ) :
    (Traced.freeLoop bitmap id blockCount fuel m off).AllEvents HeapEvent.Exact := by
  induction fuel generalizing m off with
  | zero => exact allEvents_pure _
  | succ fuel ih =>
    have hcount := blockCount.toNat_lt
    rw [Traced.freeLoop]
    simp only [allEvents_bind, allEvents_readEntry, value_readEntry, HeapEvent.Exact]
    refine ⟨⟨by omega, trivial⟩, ?_⟩
    split_ifs with hgo
    · have hlt := UInt32.lt_iff_toNat_lt.mp hgo.2
      have hnext := toNat_add_one_of_lt hgo.2
      simp only [allEvents_bind, allEvents_add, value_add, HeapEvent.Exact, UInt32.toNat_one]
      exact ⟨by omega, by omega, ih (by omega)⟩
    · exact allEvents_pure _

/-- The run of an allocation is given back. -/
theorem BlockInv.exact_giveBack (h : BlockInv m b segs) (hlow : b.Below) {s : Seg} (hs : s ∈ segs) {p : UInt32}
    (hp : p.toNat = b.base + s.start * b.blockSize.toNat) : (Traced.giveBack m b p).AllEvents HeapEvent.Exact := by
  have hroom := h.wf.count_add_le
  have hblock := h.wf.blockPos
  have hfits := hlow.bitmap_add_lt h.wf
  have hbase := h.wf.toNat_bitmap
  have hcount := b.toNat_blockCount
  have hlen := h.tiles.pos s hs
  have hhi := h.tiles.le_hi s hs
  have hstart := h.wf.blockStart_eq (show s.start < b.count by omega) hp
  obtain ⟨m', hloop⟩ := h.freeLoop_end hs
  have hvalue := (value_freeLoop (m := m) (Nat.le_add_left _ _)).trans hloop
  have hoff : (UInt32.ofNat s.start).toNat = s.start := toNat_ofNat_of_lt (by omega)
  have hstop : (UInt32.ofNat (s.start + s.len)).toNat = s.start + s.len := toNat_ofNat_of_lt (by omega)
  have hfreed : (UInt32.ofNat (s.start + s.len) - UInt32.ofNat s.start).toNat = s.len := by
    rw [toNat_sub_of_le (by omega), hstop, hoff, Nat.add_sub_cancel_left]
  have hcells := usedCells_clear (entry m b) FREE hhi fun k hk => by
    rw [h.tiles.const s hs k hk]
    exact h.tiles.ne_free s hs
  have hused := h.used
  simp only [Traced.giveBack, allEvents_bind, allEvents_sub, allEvents_readEntry, allEvents_pure,
    value_bitmap, value_sub, value_readEntry, HeapEvent.Exact, hstart, hvalue, hstop, hoff, hfreed]
  refine ⟨exact_bitmap h.wf, by omega, exact_bitmap h.wf, ⟨by omega, trivial⟩, ?_, by omega, by omega, trivial⟩
  exact exact_freeLoop hfits (by omega) _

theorem exact_freeIn (h : b.WF) (hlow : b.Below) {p : UInt32}
    (hgive : b.Holds p → (Traced.giveBack m b p).AllEvents HeapEvent.Exact) :
    (Traced.freeIn m p b).AllEvents HeapEvent.Exact := by
  have hroom := h.room
  have hblock := h.blockPos
  have hbase := h.toNat_bitmap
  have htop := hlow
  rw [memblockGetBitmap, Memblock.base] at hbase
  rw [Memblock.Below] at htop
  rw [Traced.freeIn]
  by_cases hlo : b.addr < p
  · rw [if_pos hlo]
    simp only [allEvents_bind, allEvents_add, value_add, HeapEvent.Exact, hbase]
    refine ⟨(allEvents_bitmap b).mp (exact_bitmap h), htop, ?_⟩
    by_cases hhi : p < b.addr + sizeofMemblock + b.totalSize
    · rw [if_pos hhi]
      exact hgive (hlow.holds_iff.mp ⟨hlo, hhi⟩)
    · rw [if_neg hhi]
      exact allEvents_pure _
  · rw [if_neg hlo]
    exact allEvents_pure _

/-- Where the pointer is not, only addresses are compared. -/
theorem passed_of_not_holds (h : b.WF) (hlow : b.Below) {p : UInt32} (hp : ¬ b.Holds p) :
    Passed HeapEvent.Exact p b := fun _ =>
  ⟨freeIn_of_not_holds h hp, exact_freeIn h hlow fun hholds => absurd hholds hp⟩

end Superblock

/-! ### The heap -/

/-- `memheap_add_block`. -/
theorem Region.exact_memheapAddBlock (r : Region) (m : Mem) (heap : MemHeap) :
    (Traced.memheapAddBlock m heap r.addr r.size r.blockSize).AllEvents HeapEvent.Exact := by
  have hwf := r.wf
  have hroom := hwf.count_add_le
  have hsize := r.room
  have hlt := r.size.toNat_lt
  have htotal := r.toNat_totalSize
  have hcount := r.superblock.toNat_blockCount
  have hheader : sizeofMemblock.toNat = 20 := rfl
  simp only [Traced.memheapAddBlock, allEvents_bind, allEvents_sub, allEvents_pure, value_sub, HeapEvent.Exact,
    hheader, and_true]
  refine ⟨by omega, exact_bitmap ⟨hwf.blockPos, hwf.room, hwf.fits⟩, exact_CEILING r.blockPos ?_⟩
  change (memblockGetBlockCount r.superblock).toNat + r.superblock.blockSize.toNat < 2 ^ 32
  omega

/-- `memheap_alloc`. -/
theorem HeapState.Inv.exact_memheapAlloc {s : HeapState} (h : s.Inv) {size : UInt32} (hsize : 0 < size.toNat) :
    (Traced.memheapAlloc s.mem size s.heap).AllEvents HeapEvent.Exact := by
  refine allEvents_memheapAlloc.mpr fun pre b post hheap _ => ?_
  have hb : b ∈ s.heap := by rw [hheap]; simp
  exact (h.inv b hb).exact_allocIn (h.below hb) hsize

/-- `memheap_free`. -/
theorem HeapState.Inv.exact_memheapFree {s : HeapState} (h : s.Inv) {x : Alloc} (hx : x ∈ s.live) :
    (Traced.memheapFree s.mem x.ptr s.heap).AllEvents HeapEvent.Exact := by
  have hcases := h.superblocks.free_cases hx fun b hb _ => h.below hb
  rcases hcases with ⟨pre, b, post, t, hheap, hbt, hholds, -, -⟩ | ⟨hout, -⟩
  · have hmem : ∀ c, c ∈ pre ∨ c = b ∨ c ∈ post → c ∈ s.heap := fun c hc => by
      rw [hheap]
      simpa only [List.mem_append, List.mem_cons] using hc
    have hb := hmem b (Or.inr (Or.inl rfl))
    obtain ⟨hpre, hpost⟩ := h.superblocks.others_not_holds hheap hholds
    rw [hheap, allEvents_memheapFree_append]
    · exact exact_freeIn (h.inv b hb).wf (h.below hb) fun _ =>
        (h.inv b hb).exact_giveBack (h.below hb) ⟨x, hx, hbt⟩ hbt.ptr
    · exact fun c hc => passed_of_not_holds (hpre c hc).1 (h.below (hmem c (Or.inl hc))) (hpre c hc).2
    · exact fun c hc => passed_of_not_holds (hpost c hc).1 (h.below (hmem c (Or.inr (Or.inr hc)))) (hpost c hc).2
  · exact allEvents_memheapFree_of_passed fun c hc => passed_of_not_holds (hout c hc).1 (h.below hc) (hout c hc).2

/-- What is evaluated gives `a`, and nothing wraps on the way. -/
def Traced.Computes {α : Type} (x : Traced α) (a : α) : Prop := x.value = a ∧ x.AllEvents HeapEvent.Exact

/-- **No 32-bit expression wraps**: in every state of every run, all that `memheap_add_block` evaluates for a region
apart from those there are, `memheap_alloc` for any size but `0` and `memheap_free` for a live pointer has the value
that it has in the natural numbers. -/
theorem heap_exact {m : Mem} {ops : List HeapOp} {s : HeapState} (h : heapMachine.run (HeapState.init m) ops = some s) :
    (∀ r : Region, (∀ t ∈ s.added, r.Apart t) →
      (Traced.memheapAddBlock s.mem s.heap r.addr r.size r.blockSize).Computes
        (memheapAddBlock s.mem s.heap r.addr r.size r.blockSize)) ∧
    (∀ size : UInt32, 1 ≤ size.toNat → (Traced.memheapAlloc s.mem size s.heap).Computes
      (memheapAlloc s.mem size s.heap)) ∧
    ∀ x ∈ s.live, (Traced.memheapFree s.mem x.ptr s.heap).Computes (memheapFree s.mem x.ptr s.heap) := by
  have hinv := inv_of_run h
  refine ⟨fun r _ => ⟨value_memheapAddBlock _ _ _ _ _, r.exact_memheapAddBlock s.mem s.heap⟩, fun size hsize => ?_,
    fun x hx => ?_⟩
  · exact ⟨value_memheapAlloc _ _ _, hinv.exact_memheapAlloc hsize⟩
  · exact ⟨value_memheapFree _ _ _, hinv.exact_memheapFree hx⟩

theorem heap_exact_sample :
    ∃ s, heapMachine.run (HeapState.init fun _ => 0) sampleOps = some s ∧
      (Traced.memheapAlloc s.mem 0xFFFFFFFF s.heap).Computes (memheapAlloc s.mem 0xFFFFFFFF s.heap) := by
  have hrun : (heapMachine.run (HeapState.init fun _ => 0) sampleOps).isSome := by
    decide +kernel
  obtain ⟨s, hs⟩ := Option.isSome_iff_exists.mp hrun
  exact ⟨s, hs, (heap_exact hs).2.1 _ (by decide)⟩

end MoltarOS.Mm
