import MoltarOS.Mm.HeapSafety

/-!
# First fit

`memheap_alloc` rejects a superblock on its `used` counter before it looks at the bitmap, and
its scan goes on behind a run that was too short. Neither makes it miss a run.

## What is proved

* `BlockInv.allocIn_eq_none_iff` — in one superblock: `NULL` exactly when no run is long enough.
* `first_fit` — in the whole heap: `NULL` exactly when no superblock of the list has a run, and
  otherwise the lowest run of the first superblock that has one.

A superblock at address `0` ends the list, and with it goes the room in the superblocks added
before (`first_fit_lost`).
-/

namespace MoltarOS.Mm

open MoltarOS.Lib MoltarOS.Lib.Word

/-! ### One superblock -/

/-- `ceil(size / block_size)` consecutive free entries begin at `i`. -/
def Memblock.FitsAt (m : Mem) (b : Memblock) (size : UInt32) (i : ℕ) : Prop :=
  RunAt m (memblockGetBitmap b) (size.toNat ⌈/⌉ b.blockSize.toNat) b.count i

/-- There is room for the request. -/
def Memblock.HasRoom (m : Mem) (b : Memblock) (size : UInt32) : Prop := ∃ i, b.FitsAt m size i

section Superblock

variable {m : Mem} {b : Memblock} {segs : Set Seg} {size : UInt32}

/-- A run is not counted in `used`. -/
theorem BlockInv.used_add_le (h : BlockInv m b segs) {n i : ℕ} (hrun : RunAt m (memblockGetBitmap b) n b.count i) :
    b.used.toNat + n ≤ b.count := by
  have hfree : ∀ k ∈ Seg.mk i n, entry m b k = FREE := by
    rintro k ⟨h1, h2⟩
    obtain ⟨d, rfl⟩ := Nat.exists_eq_add_of_le h1
    exact hrun.2 d (Nat.lt_of_add_lt_add_left h2)
  have hcells := usedCells_fill hrun.1 hfree (show (1 : UInt8) ≠ FREE by decide)
  rw [h.used]
  calc usedCells (entry m b) FREE b.count + n = usedCells (relabel (entry m b) ⟨i, n⟩ 1) FREE b.count := hcells.symm
    _ ≤ b.count := usedCells_le _ _ _

/-- **The quick test is sound**: where there is room it passes. -/
theorem BlockInv.fit_of_hasRoom (h : BlockInv m b segs) (hroom : b.HasRoom m size) :
    size ≤ b.totalSize - b.used * b.blockSize := by
  obtain ⟨i, hrun⟩ := hroom
  have hle := h.used_add_le hrun
  have hsize : size.toNat ≤ b.blockSize.toNat * (size.toNat ⌈/⌉ b.blockSize.toNat) :=
    (ceilDiv_le_iff_le_mul h.wf.blockPos).mp le_rfl
  have hmul := Nat.mul_le_mul_left b.blockSize.toNat hle
  rw [Nat.mul_add, Nat.mul_comm _ b.count, Nat.mul_comm _ b.used.toNat] at hmul
  have htotal := b.count_mul_le
  rw [UInt32.le_iff_toNat_le, h.toNat_remaining]
  omega

/-- **No run is missed.** -/
theorem BlockInv.allocIn_eq_none_iff (h : BlockInv m b segs) (hsize : 0 < size.toNat) :
    allocIn m size b = none ↔ ¬ b.HasRoom m size := by
  constructor
  · rintro hnone ⟨i, hrun⟩
    have hfit := h.fit_of_hasRoom ⟨i, hrun⟩
    rw [allocIn, if_pos hfit] at hnone
    rcases h.findRun_first hsize hfit with ⟨j, heq, -⟩ | ⟨-, hno⟩
    · simp only [heq] at hnone
      cases hnone
    · exact hno i (Nat.zero_le i) hrun
  · intro hno
    unfold allocIn
    split_ifs with hfit
    · rcases h.findRun_first hsize hfit with ⟨j, -, -, hrun, -⟩ | ⟨heq, -⟩
      · exact absurd ⟨j, hrun⟩ hno
      · simp only [heq]
    · rfl

end Superblock

/-! ### The heap -/

theorem memheapAlloc_eq_none_iff {m : Mem} {size : UInt32} {heap : MemHeap} :
    memheapAlloc m size heap = none ↔ ∀ b ∈ heap, allocIn m size b = none := by
  induction heap with
  | nil => simp [memheapAlloc]
  | cons b rest ih =>
    rw [memheapAlloc, List.forall_mem_cons]
    cases hb : allocIn m size b with
    | none => simpa using ih
    | some r => simp

/-- The superblock `b`, the first of the list with room for the request, gives its lowest run `t`:
these entries were free and are in use, `used` grows by their number, the pointer is the address of
the first block, and nothing else of the heap changes. -/
structure FirstFit (s : HeapState) (size p : UInt32) (m' : Mem) (heap' : MemHeap) (b : Memblock) (t : Seg) : Prop where
  /-- The superblocks before it in the list have no room. -/
  first : ∃ pre post, s.heap = pre ++ b :: post ∧ ∀ c ∈ pre, ¬ c.HasRoom s.mem size
  /-- The run is long enough. -/
  fits : b.FitsAt s.mem size t.start
  /-- No lower one is. -/
  lowest : ∀ j < t.start, ¬ b.FitsAt s.mem size j
  /-- Its blocks are those of the allocation. -/
  placed : Placed b ⟨p, size⟩ t
  /-- No other entry and no other header changes. -/
  only : OnlyEntries s b t m' (b.used + UInt32.ofNat t.len) heap'
  /-- Its entries become used. -/
  claims : ∀ k ∈ t, entry s.mem b k = FREE ∧ entry m' b k ≠ FREE
  /-- They are counted. -/
  count : (b.used + UInt32.ofNat t.len).toNat = b.used.toNat + t.len

theorem firstFit_of_alloc {s : HeapState} (h : s.Inv) {size p : UInt32} {m' : Mem} {heap' : MemHeap}
    (hsize : 0 < size.toNat) (ha : memheapAlloc s.mem size s.heap = some (p, m', heap')) :
    ∃ b t, FirstFit s size p m' heap' b t := by
  obtain ⟨pre, b, b', post, hheap, rfl, hin, hpre⟩ := memheapAlloc_eq_some ha
  have hb : b ∈ s.heap := by rw [hheap]; simp
  have hnone : ∀ c ∈ pre, ¬ c.HasRoom s.mem size := by
    intro c hc
    have hcheap : c ∈ s.heap := by rw [hheap]; simp [hc]
    exact ((h.inv c hcheap).allocIn_eq_none_iff hsize).mp (hpre c hc)
  obtain ⟨t, hc⟩ := (h.inv b hb).claimed hsize hin
  have hused := hc.toNat_used (h.inv b hb)
  obtain ⟨id, hid, -, -, hlabel⟩ := hc.label
  have honly := onlyEntries_of_relabel (u := b.used + UInt32.ofNat t.len) h hb hheap hlabel hc.frame
  have hhi := hc.hi
  rw [hc.header] at hused ⊢
  refine ⟨b, t, ⟨pre, post, hheap, hnone⟩, ?_, ?_, hc.placed, honly, ?_, hused⟩
  · rw [Memblock.FitsAt, ← hc.len]
    refine ⟨hhi, fun k hk => hc.free (t.start + k) ?_⟩
    rw [Seg.mem_iff]
    omega
  · intro j hj
    rw [Memblock.FitsAt, ← hc.len]
    exact hc.first j hj
  · intro k hk
    obtain ⟨-, hk2⟩ := Seg.mem_iff.mp hk
    refine ⟨hc.free k hk, ?_⟩
    rw [hlabel k (by omega), relabel_of_mem _ _ hk]
    exact hid

/-- **First fit is complete**: `memheap_alloc` returns `NULL` exactly when no superblock of the
list has a run that is long enough, and then changes nothing; otherwise it claims the lowest run
of the first superblock that has one. The list has the superblocks of all regions, unless one
is at address `0`. -/
theorem first_fit {m : Mem} {ops : List HeapOp} {s : HeapState}
    (h : heapMachine.run (HeapState.init m) ops = some s) {size : UInt32} (hsize : 1 ≤ size.toNat) :
    (memheapAlloc s.mem size s.heap = none ↔ ∀ b ∈ s.heap, ¬ b.HasRoom s.mem size) ∧
    (memheapAlloc s.mem size s.heap = none → heapMachine.step s (.alloc size) = some s) ∧
    (∀ p m' heap', memheapAlloc s.mem size s.heap = some (p, m', heap') → ∃ b t, FirstFit s size p m' heap' b t) ∧
    ((∀ r ∈ s.added, r.addr ≠ 0) → ∀ r ∈ s.added, ∃ b ∈ s.heap, b.Of r) := by
  have hinv := inv_of_run h
  refine ⟨?_, fun hnone => ?_, fun p m' heap' => firstFit_of_alloc hinv hsize, hinv.kept⟩
  · rw [memheapAlloc_eq_none_iff]
    exact forall₂_congr fun b hb => (hinv.inv b hb).allocIn_eq_none_iff hsize
  · simp only [heapMachine, HeapState.step, if_pos hsize, hnone]

theorem first_fit_sample :
    ∃ s, heapMachine.run (HeapState.init fun _ => 0) sampleOps = some s ∧
      (memheapAlloc s.mem 17 s.heap = none ↔ ∀ b ∈ s.heap, ¬ b.HasRoom s.mem 17) := by
  have hrun : (heapMachine.run (HeapState.init fun _ => 0) sampleOps).isSome := by
    decide +kernel
  obtain ⟨s, hs⟩ := Option.isSome_iff_exists.mp hrun
  exact ⟨s, hs, (first_fit hs (by decide)).1⟩

/-- After a superblock at address `0` is added, `memheap_alloc` returns `NULL` although the
superblock added before has a run of three free blocks. -/
theorem first_fit_lost :
    ∃ s, heapMachine.run (HeapState.init fun _ => 0) [.add smallRegion, .add zeroRegion] = some s ∧
      ¬ (memheapAlloc s.mem 16 s.heap = none ↔ ∀ r ∈ s.added, ¬ r.superblock.HasRoom s.mem 16) := by
  have hrun : (heapMachine.run (HeapState.init fun _ => 0) [.add smallRegion, .add zeroRegion]).map
      (fun s => (s.heap, s.added.map Region.superblock, entry s.mem smallRegion.superblock 1)) =
      some ([], [zeroRegion.superblock, smallRegion.superblock], FREE) := by
    decide +kernel
  obtain ⟨s, hs, hl⟩ := Option.map_eq_some_iff.mp hrun
  simp only [Prod.mk.injEq] at hl
  obtain ⟨hheap, hadded, hfree⟩ := hl
  have hmem : smallRegion.superblock ∈ s.added.map Region.superblock := by rw [hadded]; simp
  obtain ⟨r, hr, hsmall⟩ := List.mem_map.mp hmem
  refine ⟨s, hs, fun hiff => hiff.mp (by rw [hheap]; rfl) r hr ?_⟩
  rw [hsmall]
  refine ⟨1, by decide, fun k hk => ?_⟩
  have hlen : (16 : UInt32).toNat ⌈/⌉ smallRegion.superblock.blockSize.toNat = 1 := by decide
  obtain rfl : k = 0 := by omega
  exact hfree

end MoltarOS.Mm
