import MoltarOS.Mm.HeapSafety

/-!
# Allocating and freeing again

A request of a positive size is undone by `memheap_free`, and the pointer is not given out
again before. A request of size `0`, which the check of `kmalloc` admits, claims no entry: the
pointer is that of a free block, and `memheap_free` counts the free blocks from there on as given back.

## What is proved

* `round_trip_iff` — the round trip is exact, and the pointer not reused, for the sizes from `1` on
  and for no other.
-/

namespace MoltarOS.Mm

open MoltarOS.Lib MoltarOS.Lib.Word MoltarOS.Libc

/-! ### Requests of size 0 -/

section Zero

variable {m m' : Mem} {b b' : Memblock} {segs : Set Seg} {p : UInt32}

/-- A scan for no blocks stops at the first free entry. -/
theorem findRun_zero_spec (m : Mem) (bitmap : UInt32) {blockCount : UInt32} {i₀ fuel : ℕ} (hle : i₀ ≤ blockCount.toNat)
    (hfuel : blockCount.toNat ≤ i₀ + fuel) :
    FirstRun m bitmap 1 blockCount.toNat i₀ (findRun m bitmap 0 blockCount fuel (UInt32.ofNat i₀)) := by
  have hc := blockCount.toNat_lt
  induction fuel generalizing i₀ with
  | zero =>
    refine Or.inr ⟨rfl, fun j hj hrun => ?_⟩
    have := hrun.1
    omega
  | succ fuel ih =>
    have hi' : UInt32.ofNat i₀ < blockCount ↔ i₀ < blockCount.toNat := UInt32.ofNat_lt_iff (show i₀ < 2 ^ 32 by omega)
    have hnone : freeRun m bitmap (UInt32.ofNat i₀) 0 blockCount (0 : UInt32).toNat 0 = 0 := rfl
    simp only [findRun, hi', hnone, if_true]
    by_cases hlt : i₀ < blockCount.toNat
    · rw [if_pos hlt]
      by_cases hfree : m (bitmap + UInt32.ofNat i₀) = FREE
      · rw [if_pos hfree]
        refine Or.inl ⟨i₀, rfl, le_rfl, ⟨hlt, fun k hk => ?_⟩, fun j h1 h2 => by omega⟩
        rwa [Nat.lt_one_iff.mp hk]
      · rw [if_neg hfree, ← ofNat_add_one]
        refine (@ih (i₀ + 1) hlt (by omega)).skip (Nat.le_succ i₀) fun j hj hj' hrun => hfree ?_
        obtain rfl : j = i₀ := by omega
        exact hrun.2 0 Nat.one_pos
    · rw [if_neg hlt]
      refine Or.inr ⟨rfl, fun j hj hrun => ?_⟩
      have := hrun.1
      omega

/-- A request of size `0` changes nothing, and the pointer is the address of a free block. -/
theorem BlockInv.allocIn_zero (h : BlockInv m b segs) (ha : allocIn m 0 b = some (p, m', b')) :
    m' = m ∧ b' = b ∧ ∃ i < b.count, entry m b i = FREE ∧ p.toNat = b.base + i * b.blockSize.toNat := by
  have hceil : CEILING 0 b.blockSize = 0 := by
    have hsize := b.blockSize.toNat_lt
    have hzero : (0 : UInt32).toNat = 0 := rfl
    apply UInt32.toNat_inj.mp
    rw [toNat_CEILING h.wf.blockPos (by omega), hzero, zero_ceilDiv]
  rw [allocIn, if_pos UInt32.zero_le, hceil] at ha
  rcases @findRun_zero_spec m (memblockGetBitmap b) (memblockGetBlockCount b) 0 (memblockGetBlockCount b).toNat
    (Nat.zero_le _) (by omega) with ⟨i, heq, -, hrun, -⟩ | ⟨heq, -⟩
  · rw [show UInt32.ofNat 0 = 0 from rfl] at heq
    simp only [heq, Option.some.injEq, Prod.mk.injEq] at ha
    obtain ⟨rfl, rfl, rfl⟩ := ha
    have hi := hrun.1
    rw [b.toNat_blockCount] at hi
    exact ⟨rfl, by rw [UInt32.add_zero], i, hi, hrun.2 0 Nat.one_pos, h.wf.toNat_blockAddr hi⟩
  · rw [show UInt32.ofNat 0 = 0 from rfl] at heq
    simp only [heq] at ha
    cases ha

/-- Freeing the address of a block takes at least that block off `used`. -/
theorem BlockInv.freeIn_ne (h : BlockInv m b segs) (hlow : b.Below) {i : ℕ} (hi : i < b.count)
    (hp : p.toNat = b.base + i * b.blockSize.toNat) : (freeIn m p b).2 ≠ b := by
  obtain ⟨stop, hlt, hle, hrun, hend⟩ := exists_run_end (P := fun k => entry m b k = entry m b i) hi rfl
  have hcount := h.wf.count_add_le
  have hfits := h.wf.fits
  have hblock := h.wf.blockPos
  have hlen : (UInt32.ofNat (stop - i)).toNat = stop - i := toNat_ofNat_of_lt (by omega)
  rw [h.wf.freeIn_eq hlow hlt hle hp hrun hend]
  intro heq
  have hused : b.used - UInt32.ofNat (stop - i) = b.used := congrArg Memblock.used heq
  have hzero : UInt32.ofNat (stop - i) = 0 := by grind
  rw [hzero] at hlen
  have hpos : (0 : UInt32).toNat = 0 := rfl
  omega

end Zero

/-- In the whole heap: nothing changes, and then `memheap_free` does not restore the `used` it finds. -/
theorem not_restored_of_zero {s : HeapState} (h : s.Inv) {p : UInt32} {m' : Mem} {heap' : MemHeap}
    (ha : memheapAlloc s.mem 0 s.heap = some (p, m', heap')) : memheapFree m' p heap' ≠ (s.mem, s.heap) := by
  obtain ⟨pre, b, b', post, hheap, rfl, hin, -⟩ := memheapAlloc_eq_some ha
  have hb : b ∈ s.heap := by rw [hheap]; simp
  obtain ⟨rfl, rfl, i, hi, -, hp⟩ := (h.inv b hb).allocIn_zero hin
  have hfree := h.superblocks.memheapFree_at hheap ((h.inv b' hb).wf.holds_of_ptr hi hp)
  rw [← hheap, hfree]
  intro heq
  have hlist : pre ++ (freeIn s.mem p b').2 :: post = s.heap := congrArg Prod.snd heq
  rw [hheap, List.append_right_inj, List.cons.injEq] at hlist
  exact (h.inv b' hb).freeIn_ne (h.below hb) hi hp hlist.1

/-! ### Requests of a positive size -/

/-- The bytes of a bitmap are its entries. -/
theorem mem_eq_of_entry {m m' : Mem} {b : Memblock} (h : b.WF) (hentry : ∀ k < b.count, entry m' b k = entry m b k)
    (hframe : ∀ a, ¬ b.InBitmap a → m' a = m a) : m' = m := by
  funext a
  by_cases ha : b.InBitmap a
  · obtain ⟨hlo, hhi⟩ := ha
    obtain ⟨k, hk⟩ := Nat.exists_eq_add_of_le hlo
    have hcell : memblockGetBitmap b + UInt32.ofNat k = a := by
      have hlt := a.toNat_lt
      apply UInt32.toNat_inj.mp
      rw [toNat_add_ofNat (by rw [h.toNat_bitmap]; omega), h.toNat_bitmap, hk]
    have hbyte := hentry k (by omega)
    rwa [entry, entry, hcell] at hbyte
  · exact hframe a ha

/-- **`memheap_free` undoes `memheap_alloc`**, byte by byte. -/
theorem restored_of_pos {s : HeapState} (h : s.Inv) {size p : UInt32} {m' : Mem} {heap' : MemHeap}
    (hsize : 0 < size.toNat)
    (ha : memheapAlloc s.mem size s.heap = some (p, m', heap')) : memheapFree m' p heap' = (s.mem, s.heap) := by
  have hinv := alloc_inv h hsize ha
  obtain ⟨pre, b, b', post, hheap, rfl, hin, -⟩ := memheapAlloc_eq_some ha
  have hb : b ∈ s.heap := by rw [hheap]; simp
  have hb' : b' ∈ pre ++ b' :: post := by simp
  obtain ⟨t, hc⟩ := (h.inv b hb).claimed hsize hin
  have hwf := (h.inv b hb).wf
  have hplaced : Placed b' ⟨p, size⟩ t := by
    rw [hc.header]
    exact hc.placed.of_used
  have hrel : Released m' b' t (freeIn m' p b').1 (freeIn m' p b').2 :=
    (hinv.inv b' hb').freeIn_eq (hinv.below hb') ⟨_, List.mem_cons_self, hplaced⟩ hplaced.ptr
  have hfree : memheapFree m' p (pre ++ b' :: post) = ((freeIn m' p b').1, pre ++ (freeIn m' p b').2 :: post) :=
    hinv.superblocks.memheapFree_at rfl (hplaced.holds (hinv.inv b' hb').wf hsize)
  have hheader : (freeIn m' p b').2 = b := by
    rw [hrel.header, hc.header, UInt32.add_sub_cancel]
  have hbitmap : ∀ a, b'.InBitmap a ↔ b.InBitmap a := by
    rw [hc.header]
    exact fun a => Iff.rfl
  obtain ⟨id, -, -, -, hlabel⟩ := hc.label
  have hcount : b'.count = b.count := by rw [hc.header]; rfl
  have hentry' : ∀ m, entry m b' = entry m b := by rw [hc.header]; exact fun m => rfl
  have hrestored : (freeIn m' p b').1 = s.mem := by
    refine mem_eq_of_entry hwf (fun k hk => ?_) fun a ha => ?_
    · have hback := hrel.label k (by rw [hcount]; exact hk)
      rw [hentry', hentry'] at hback
      rw [hback]
      by_cases hkt : k ∈ t
      · rw [relabel_of_mem _ _ hkt, hc.free k hkt]
      · rw [relabel_of_not_mem _ _ hkt, hlabel k hk, relabel_of_not_mem _ _ hkt]
    · rw [hrel.frame a (by rw [hbitmap]; exact ha), hc.frame a ha]
  rw [hfree, hheader, hrestored, hheap]

/-! ### Later requests -/

/-- Until `p` is freed, `memheap_alloc` does not return it. -/
def HeapState.NotReused (s : HeapState) (p : UInt32) : Prop :=
  ∀ ops t, (∀ op ∈ ops, op ≠ .free p) → heapMachine.run s ops = some t →
    ∀ size q m heap, memheapAlloc t.mem size t.heap = some (q, m, heap) → q ≠ p

theorem mem_live_of_step {s t : HeapState} {x : Alloc} (hx : x ∈ s.live) {op : HeapOp} (hop : op ≠ .free x.ptr)
    (hs : heapMachine.step s op = some t) : x ∈ t.live := by
  cases op with
  | add r =>
    simp only [heapMachine, HeapState.step] at hs
    split_ifs at hs
    cases hs
    exact hx
  | alloc size =>
    simp only [heapMachine, HeapState.step] at hs
    split_ifs at hs
    split at hs
    · cases hs
      exact List.mem_cons_of_mem _ hx
    · cases hs
      exact hx
  | free p =>
    simp only [heapMachine, HeapState.step] at hs
    split_ifs at hs
    cases hs
    refine List.mem_filter.mpr ⟨hx, decide_eq_true ?_⟩
    rintro rfl
    exact hop rfl
  | write a v =>
    simp only [heapMachine, HeapState.step] at hs
    split_ifs at hs
    cases hs
    exact hx

/-- A live allocation stays until it is freed. -/
theorem mem_live_of_run {s t : HeapState} {x : Alloc} {ops : List HeapOp} (hx : x ∈ s.live)
    (hops : ∀ op ∈ ops, op ≠ .free x.ptr) (hr : heapMachine.run s ops = some t) : x ∈ t.live := by
  induction ops generalizing s with
  | nil =>
    cases hr
    exact hx
  | cons op ops ih =>
    obtain ⟨u, hu, hr⟩ := heapMachine.run_cons.mp hr
    obtain ⟨hop, hops⟩ := List.forall_mem_cons.mp hops
    exact ih (mem_live_of_step hx hop hu) hops hr

/-- The pointer of a live allocation is not returned, whatever the size asked for. -/
theorem ptr_ne_of_live {s : HeapState} (h : s.Inv) {x : Alloc} (hx : x ∈ s.live) {size q : UInt32} {m : Mem}
    {heap : MemHeap} (ha : memheapAlloc s.mem size s.heap = some (q, m, heap)) : q ≠ x.ptr := by
  obtain ⟨pre, b, b', post, hheap, rfl, hin, -⟩ := memheapAlloc_eq_some ha
  have hb : b ∈ s.heap := by rw [hheap]; simp
  have hinv := h.inv b hb
  -- the block the pointer is the address of was free
  obtain ⟨i, hi, hfree, hq⟩ : ∃ i < b.count, entry s.mem b i = FREE ∧ q.toNat = b.base + i * b.blockSize.toNat := by
    rcases Nat.eq_zero_or_pos size.toNat with hzero | hpos
    · obtain rfl : size = 0 := UInt32.toNat_inj.mp hzero
      exact (hinv.allocIn_zero hin).2.2
    · obtain ⟨t, hc⟩ := hinv.claimed hpos hin
      have hhi := hc.hi
      have hlen := hc.pos
      exact ⟨t.start, by omega, hc.free t.start (by rw [Seg.mem_iff]; omega), hc.ptr⟩
  rintro rfl
  -- that of a live allocation is in use
  obtain ⟨hpos, r, hr, t, hxt⟩ := h.placed x hx
  obtain ⟨r', hr', hbr⟩ := h.blocks b hb
  have hholds := hinv.wf.holds_of_ptr hi hq
  have hrr : r = r' := h.region_eq hr hr' (hxt.holds r.wf hpos) (by rw [hbr] at hholds; exact hholds)
  subst hrr
  have hxt' := hbr.placed_iff.mpr hxt
  have hmem : t ∈ segsOf b s.live := ⟨x, hx, hxt'⟩
  have hstart : i = t.start := by
    have hptr := hxt'.ptr
    rw [hq] at hptr
    exact Nat.eq_of_mul_eq_mul_right hinv.wf.blockPos (Nat.add_left_cancel hptr)
  exact hinv.tiles.ne_free t hmem (hstart ▸ hfree)

theorem notReused_of_pos {s : HeapState} (h : s.Inv) {size p : UInt32} {m' : Mem} {heap' : MemHeap}
    (hsize : 0 < size.toNat) (ha : memheapAlloc s.mem size s.heap = some (p, m', heap')) :
    HeapState.NotReused { s with mem := m', heap := heap', live := ⟨p, size⟩ :: s.live } p := by
  intro ops t hops hr size' q m heap hq
  have hinv := heapMachine.invariant (fun _ _ _ => step_inv) (alloc_inv h hsize ha) hr
  have hlive : (⟨p, size⟩ : Alloc) ∈ t.live := mem_live_of_run List.mem_cons_self hops hr
  exact ptr_ne_of_live hinv hlive hq

/-- **Round trip**: `memheap_free` of a pointer just returned restores the heap exactly, and the pointer
is not returned again before it is freed, if and only if the size asked for was not `0`. -/
theorem round_trip_iff {m : Mem} {ops : List HeapOp} {s : HeapState}
    (h : heapMachine.run (HeapState.init m) ops = some s) {size p : UInt32} {m' : Mem} {heap' : MemHeap}
    (ha : memheapAlloc s.mem size s.heap = some (p, m', heap')) :
    (memheapFree m' p heap' = (s.mem, s.heap) ∧
      HeapState.NotReused { s with mem := m', heap := heap', live := ⟨p, size⟩ :: s.live } p) ↔ 1 ≤ size.toNat := by
  have hinv := inv_of_run h
  constructor
  · rintro ⟨hrestored, -⟩
    by_contra hzero
    obtain rfl : size = 0 := UInt32.toNat_inj.mp (by
      have hz : (0 : UInt32).toNat = 0 := rfl
      omega)
    exact not_restored_of_zero hinv ha hrestored
  · exact fun hsize => ⟨restored_of_pos hinv hsize ha, notReused_of_pos hinv hsize ha⟩

theorem round_trip_sample :
    ∃ s p m' heap', heapMachine.run (HeapState.init fun _ => 0) [.add smallRegion] = some s ∧
      memheapAlloc s.mem 20 s.heap = some (p, m', heap') ∧ memheapFree m' p heap' = (s.mem, s.heap) := by
  have hrun : (heapMachine.run (HeapState.init fun _ => 0) [.add smallRegion]).map
      (fun s => (memheapAlloc s.mem 20 s.heap).isSome) = some true := by
    decide +kernel
  obtain ⟨s, hs, hl⟩ := Option.map_eq_some_iff.mp hrun
  obtain ⟨⟨p, m', heap'⟩, ha⟩ := Option.isSome_iff_exists.mp hl
  exact ⟨s, p, m', heap', hs, ha, ((round_trip_iff hs ha).mpr (by decide)).1⟩

/-- A request of size `0` right after `memheap_add_block`: `used` is `1`, and `-2` once the pointer
has been freed. -/
theorem round_trip_lost :
    ∃ s p m' heap', heapMachine.run (HeapState.init fun _ => 0) [.add smallRegion] = some s ∧
      memheapAlloc s.mem 0 s.heap = some (p, m', heap') ∧ s.heap.map Memblock.used = [1] ∧
      (memheapFree m' p heap').2.map Memblock.used = [0xFFFFFFFE] := by
  have hrun : (heapMachine.run (HeapState.init fun _ => 0) [.add smallRegion]).map
      (fun s => (s.heap.map Memblock.used, (memheapAlloc s.mem 0 s.heap).map
        fun r => (memheapFree r.2.1 r.1 r.2.2).2.map Memblock.used)) = some ([1], some [0xFFFFFFFE]) := by
    decide +kernel
  obtain ⟨s, hs, hl⟩ := Option.map_eq_some_iff.mp hrun
  rw [Prod.mk.injEq] at hl
  obtain ⟨hused, hfree⟩ := hl
  obtain ⟨⟨p, m', heap'⟩, ha, hfree⟩ := Option.map_eq_some_iff.mp hfree
  exact ⟨s, p, m', heap', hs, ha, hused, hfree⟩

end MoltarOS.Mm
