import MoltarOS.Mm.HeapRuns

/-!
# What the heap promises

Consequences of the invariant of `HeapRuns` for every state of every run.

## What is proved

* `live_disjoint` — live allocations are disjoint, each inside the data part of one
  superblock and clear of every header and bitmap.
* `free_exact` — an allocation claims exactly the entries it needs; freeing it clears
  exactly those; `used` is the number of entries in use; and a heap all of whose
  allocations have been freed is as `memheap_add_block` made it.

A superblock at address `0` is the `NULL` that ends the list. Adding one cuts off the
superblocks added before, and what is allocated in them can no longer be freed
(`free_lost`), so `free_exact` is about heaps that were given no such region.
-/

namespace MoltarOS.Mm

open MoltarOS.Lib MoltarOS.Lib.Word

/-! ### Disjointness -/

/-- The byte at `a` belongs to the header of the region's superblock. -/
def Region.InHeader (r : Region) (a : UInt32) : Prop := r.addr.toNat ≤ a.toNat ∧ a.toNat < r.addr.toNat + 20

/-- The byte at `a` belongs to what follows the header. -/
def Region.InData (r : Region) (a : UInt32) : Prop :=
  r.addr.toNat + 20 ≤ a.toNat ∧ a.toNat < r.addr.toNat + r.size.toNat

theorem not_inHeader_of_inData {s : HeapState} (h : s.Inv) {r t : Region} (hr : r ∈ s.added) (ht : t ∈ s.added)
    {a : UInt32} (ha : r.InData a) : ¬ t.InHeader a := by
  have hroom := t.room
  rw [Region.InData] at ha
  rw [Region.InHeader]
  by_cases hrt : r = t
  · subst hrt
    omega
  · have hap := h.region_apart hr ht hrt
    rw [Region.Apart] at hap
    omega

/-- **Live allocations are disjoint**, and each lies in the data part of one superblock,
off every header and every bitmap. -/
theorem live_disjoint {m : Mem} {ops : List HeapOp} {s : HeapState}
    (h : heapMachine.run (HeapState.init m) ops = some s) :
    s.live.Pairwise Alloc.Apart ∧
      ∀ x ∈ s.live, x.ptr.toNat + x.size.toNat < 2 ^ 32 ∧
        ∃ r ∈ s.added, ∀ a, x.Covers a →
          r.InData a ∧ ∀ t ∈ s.added, ¬ t.InHeader a ∧ ¬ t.superblock.InBitmap a := by
  have hinv := inv_of_run h
  refine ⟨hinv.apart, fun x hx => ?_⟩
  obtain ⟨-, r, hr, t, hxt⟩ := hinv.placed x hx
  have hb := hxt.bounds r.wf
  have htotal := r.toNat_totalSize
  have hroom := r.room
  have hfits := r.fits
  have hbase : r.superblock.base = r.addr.toNat + 20 := rfl
  refine ⟨by omega, r, hr, fun a ha => ?_⟩
  have hdata : r.InData a := by
    rw [Alloc.Covers] at ha
    constructor <;> omega
  exact ⟨hdata, fun u hu => ⟨not_inHeader_of_inData hinv hr hu hdata, not_inBitmap_of_covers hinv hx ha hu⟩⟩

/-- A region of four blocks of 16 bytes, the first of which holds the bitmap. -/
def smallRegion : Region := ⟨0x1000, 84, 16, by decide, by decide, by decide⟩

/-- A region of blocks of one byte: the bitmap takes up all of them. -/
def byteRegion : Region := ⟨0x2000, 40, 1, by decide, by decide, by decide⟩

/-- Two superblocks, an allocation freed and its block allocated again beside another. -/
def sampleOps : List HeapOp :=
  [.add smallRegion, .add byteRegion, .alloc 16, .alloc 20, .write 0x1024 7, .free 0x1024, .alloc 9]

theorem live_disjoint_sample :
    ∃ s, heapMachine.run (HeapState.init fun _ => 0) sampleOps = some s ∧
      s.live = [⟨0x1024, 9⟩, ⟨0x1034, 20⟩] ∧ s.live.Pairwise Alloc.Apart := by
  have hlive : (heapMachine.run (HeapState.init fun _ => 0) sampleOps).map HeapState.live =
      some [⟨0x1024, 9⟩, ⟨0x1034, 20⟩] := by
    decide +kernel
  obtain ⟨s, hs, hl⟩ := Option.map_eq_some_iff.mp hlive
  exact ⟨s, hs, hl, (live_disjoint hs).1⟩

/-! ### Entries -/

/-- From the state `s` to the memory `m'` and the heap `heap'`, only the entries `t` of `b`
change, and in the headers only the `used` of `b`. -/
structure OnlyEntries (s : HeapState) (b : Memblock) (t : Seg) (m' : Mem) (u : UInt32) (heap' : MemHeap) : Prop where
  /-- Every other entry of every superblock stays. -/
  other : ∀ c ∈ s.heap, ∀ k < c.count, ¬ (c = b ∧ k ∈ t) → entry m' c k = entry s.mem c k
  /-- So does every other header. -/
  heap : heap' = s.heap.map fun c => if c = b then { c with used := u } else c

/-- Exactly the entries of `x`, free before, are in use after, and `used` grows by their number. -/
def ClaimsExactly (s : HeapState) (x : Alloc) (m' : Mem) (heap' : MemHeap) : Prop :=
  ∃ b ∈ s.heap, ∃ t u, Placed b x t ∧ OnlyEntries s b t m' u heap' ∧
    (∀ k ∈ t, entry s.mem b k = FREE ∧ entry m' b k ≠ FREE) ∧ u.toNat = b.used.toNat + t.len

/-- Exactly the entries of `x`, in use before, are free after, and `used` shrinks by their number. -/
def FreesExactly (s : HeapState) (x : Alloc) (m' : Mem) (heap' : MemHeap) : Prop :=
  ∃ b ∈ s.heap, ∃ t u, Placed b x t ∧ OnlyEntries s b t m' u heap' ∧
    (∀ k ∈ t, entry s.mem b k ≠ FREE ∧ entry m' b k = FREE) ∧ u.toNat + t.len = b.used.toNat

/-- Replacing a superblock that occurs once is a map over the list. -/
theorem replace_eq_map {pre post : MemHeap} {b : Memblock} (u : UInt32)
    (h : ((pre ++ b :: post).map (·.addr)).Nodup) :
    pre ++ { b with used := u } :: post = (pre ++ b :: post).map fun c =>
      if c = b then { c with used := u } else c := by
  have hnodup := List.Nodup.of_map _ h
  have hsame : ∀ l : MemHeap, b ∉ l → (l.map fun c => if c = b then { c with used := u } else c) = l := by
    intro l hl
    refine (List.map_congr_left fun c hc => ?_).trans (List.map_id l)
    have hne : c ≠ b := fun he => hl (he ▸ hc)
    rw [if_neg hne]
    rfl
  have hpre : b ∉ pre := fun hb => (List.nodup_append.mp hnodup).2.2 b hb b List.mem_cons_self rfl
  have hpost : b ∉ post := (List.nodup_cons.mp (List.nodup_append.mp hnodup).2.1).1
  rw [List.map_append, List.map_cons, hsame pre hpre, hsame post hpost, if_pos rfl]

/-- An operation on the run `t` of `b` that writes only the bitmap of `b` changes only these entries. -/
theorem onlyEntries_of_relabel {s : HeapState} (h : s.Inv) {b : Memblock} (hb : b ∈ s.heap) {t : Seg} {m' : Mem}
    {v : UInt8} {u : UInt32} {pre post : MemHeap} (hheap : s.heap = pre ++ b :: post)
    (hlabel : ∀ k < b.count, entry m' b k = relabel (entry s.mem b) t v k)
    (hframe : ∀ a, ¬ b.InBitmap a → m' a = s.mem a) :
    OnlyEntries s b t m' u (pre ++ { b with used := u } :: post) := by
  refine ⟨fun c hc k hk hne => ?_, ?_⟩
  · by_cases hcb : c = b
    · subst hcb
      rw [hlabel k hk, relabel_of_not_mem _ _ fun hkt => hne ⟨rfl, hkt⟩]
    · refine entry_congr (h.inv c hc).wf (fun a ha => hframe a ?_) hk
      exact (h.block_apart hc hb hcb).not_inBitmap (h.inv c hc).wf (h.inv b hb).wf ha
  · have hnodup := h.nodup
    rw [hheap] at hnodup ⊢
    exact replace_eq_map u hnodup

theorem claimsExactly_of_alloc {s : HeapState} (h : s.Inv) {size p : UInt32} {m' : Mem} {heap' : MemHeap}
    (hsize : 0 < size.toNat) (ha : memheapAlloc s.mem size s.heap = some (p, m', heap')) :
    ClaimsExactly s ⟨p, size⟩ m' heap' := by
  obtain ⟨pre, b, b', post, hheap, rfl, hin, -⟩ := memheapAlloc_eq_some ha
  have hb : b ∈ s.heap := by rw [hheap]; simp
  obtain ⟨t, hc⟩ := (h.inv b hb).claimed hsize hin
  have hused := hc.toNat_used (h.inv b hb)
  obtain ⟨id, hid, -, -, hlabel⟩ := hc.label
  have honly := onlyEntries_of_relabel (u := b'.used) h hb hheap hlabel hc.frame
  have hb' : b' = { b with used := b'.used } := by rw [hc.header]
  rw [← hb'] at honly
  refine ⟨b, hb, t, b'.used, hc.placed, honly, fun k hk => ⟨hc.free k hk, ?_⟩, hused⟩
  have hhi := hc.hi
  obtain ⟨-, hk2⟩ := Seg.mem_iff.mp hk
  rw [hlabel k (by omega), relabel_of_mem _ _ hk]
  exact hid

theorem freesExactly_of_placed {s : HeapState} (h : s.Inv) {b : Memblock} (hb : b ∈ s.heap) {x : Alloc} {t : Seg}
    (hx : x ∈ s.live) (hxt : Placed b x t) :
    FreesExactly s x (memheapFree s.mem x.ptr s.heap).1 (memheapFree s.mem x.ptr s.heap).2 := by
  obtain ⟨pre, post, hheap, heq, hrel⟩ := memheapFree_eq h hb hx hxt
  have ht : t ∈ segsOf b s.live := ⟨x, hx, hxt⟩
  have hinv := h.inv b hb
  have hused := hrel.toNat_used hinv ht
  have hcells := usedCells_clear (entry s.mem b) FREE (hinv.tiles.le_hi t ht) fun k hk => by
    rw [hinv.tiles.const t ht k hk]
    exact hinv.tiles.ne_free t ht
  have honly := onlyEntries_of_relabel (u := (freeIn s.mem x.ptr b).2.used) h hb hheap hrel.label hrel.frame
  have hb' : (freeIn s.mem x.ptr b).2 = { b with used := (freeIn s.mem x.ptr b).2.used } := by
    rw [hrel.header]
  rw [← hb'] at honly
  rw [heq]
  refine ⟨b, hb, t, _, hxt, honly, fun k hk => ⟨?_, ?_⟩, ?_⟩
  · rw [hinv.tiles.const t ht k hk]
    exact hinv.tiles.ne_free t ht
  · have hhi := hxt.hi
    obtain ⟨-, hk2⟩ := Seg.mem_iff.mp hk
    rw [hrel.label k (by omega), relabel_of_mem _ _ hk]
  · rw [hused, hinv.used]
    omega

/-- A superblock without allocations is as `memheap_add_block` made it. -/
theorem BlockInv.fresh {m : Mem} {b : Memblock} {r : Region} (h : BlockInv m b ∅) (hr : b.Of r) :
    b = r.superblock ∧ ∀ k < b.count, entry m b k = if k < b.reserved then 1 else FREE := by
  have hfree : ∀ k, b.reserved ≤ k → k < b.count → entry m b k = FREE := by
    intro k h1 h2
    by_contra hne
    obtain ⟨s, hs, -⟩ := h.tiles.cover k h1 h2 hne
    exact hs
  have hused : b.used.toNat = b.reserved := by
    rw [h.used, usedCells_prefix h.wf.reserved_le (fun k hk => by rw [h.pre k hk]; decide) hfree]
  refine ⟨?_, fun k hk => ?_⟩
  · have hu : b.used = r.superblock.used := by
      apply UInt32.toNat_inj.mp
      rw [hused, r.toNat_used, hr]
      rfl
    rw [hr, hu]
  · by_cases hlt : k < b.reserved
    · rw [if_pos hlt, h.pre k hlt]
    · rw [if_neg hlt, hfree k (by omega) hk]

/-- **Freeing is exact**: an allocation claims exactly its entries, freeing a live
allocation clears exactly these, `used` counts the entries in use, and when nothing is
live every superblock and its bitmap are as right after `memheap_add_block`. -/
theorem free_exact {m : Mem} {ops : List HeapOp} {s : HeapState}
    (h : heapMachine.run (HeapState.init m) ops = some s) (hzero : ∀ r ∈ s.added, r.addr ≠ 0) :
    (∀ size p m' heap', 1 ≤ size.toNat → memheapAlloc s.mem size s.heap = some (p, m', heap') →
      ClaimsExactly s ⟨p, size⟩ m' heap') ∧
    (∀ x ∈ s.live, FreesExactly s x (memheapFree s.mem x.ptr s.heap).1 (memheapFree s.mem x.ptr s.heap).2) ∧
    (∀ b ∈ s.heap, b.used.toNat = usedCells (entry s.mem b) FREE b.count) ∧
    (s.live = [] → ∀ r ∈ s.added, r.superblock ∈ s.heap ∧
      ∀ m₀ heap₀, ∀ k < r.superblock.count, entry s.mem r.superblock k =
        entry (memheapAddBlock m₀ heap₀ r.addr r.size r.blockSize).1 r.superblock k) := by
  have hinv := inv_of_run h
  refine ⟨fun size p m' heap' hsize ha => claimsExactly_of_alloc hinv hsize ha, fun x hx => ?_,
    fun b hb => (hinv.inv b hb).used, fun hlive r hr => ?_⟩
  · obtain ⟨-, r, hr, t, hxt⟩ := hinv.placed x hx
    obtain ⟨b, hb, hbr⟩ := hinv.kept hzero r hr
    exact freesExactly_of_placed hinv hb hx (hbr.placed_iff.mpr hxt)
  · obtain ⟨b, hb, hbr⟩ := hinv.kept hzero r hr
    have hb0 := hinv.inv b hb
    have hempty : segsOf b s.live = ∅ := by
      rw [hlive, Set.eq_empty_iff_forall_notMem]
      rintro t ⟨x, hx, -⟩
      cases hx
    rw [hempty] at hb0
    obtain ⟨heq, hentries⟩ := hb0.fresh hbr
    rw [heq] at hb hentries
    refine ⟨hb, fun m₀ heap₀ k hk => ?_⟩
    rw [hentries k hk, r.memheapAddBlock_eq, r.entry_prepared m₀ hk]

theorem free_exact_sample :
    ∃ s, heapMachine.run (HeapState.init fun _ => 0) sampleOps = some s ∧ ⟨0x1034, 20⟩ ∈ s.live ∧
      FreesExactly s ⟨0x1034, 20⟩ (memheapFree s.mem 0x1034 s.heap).1 (memheapFree s.mem 0x1034 s.heap).2 := by
  have hrun : (heapMachine.run (HeapState.init fun _ => 0) sampleOps).map
      (fun s => (s.live, s.added.map Region.addr)) = some ([⟨0x1024, 9⟩, ⟨0x1034, 20⟩], [0x2000, 0x1000]) := by
    decide +kernel
  obtain ⟨s, hs, hl⟩ := Option.map_eq_some_iff.mp hrun
  rw [Prod.mk.injEq] at hl
  have hmem : (⟨0x1034, 20⟩ : Alloc) ∈ s.live := by rw [hl.1]; decide
  have hzero : ∀ r ∈ s.added, r.addr ≠ 0 := by
    intro r hr he
    have : r.addr ∈ s.added.map Region.addr := List.mem_map_of_mem hr
    rw [hl.2, he] at this
    exact absurd this (by decide)
  exact ⟨s, hs, hmem, (free_exact hs hzero).2.1 _ hmem⟩

/-- A region at address `0`. -/
def zeroRegion : Region := ⟨0, 84, 16, by decide, by decide, by decide⟩

/-- After a superblock at address `0` is added, the pointer returned before can no longer be
freed: `head` is `NULL`, and `memheap_free` finds no superblock. -/
theorem free_lost :
    ∃ s, heapMachine.run (HeapState.init fun _ => 0) [.add smallRegion, .alloc 16, .add zeroRegion] = some s ∧
      ∃ x ∈ s.live, ¬ FreesExactly s x (memheapFree s.mem x.ptr s.heap).1 (memheapFree s.mem x.ptr s.heap).2 := by
  have hrun : (heapMachine.run (HeapState.init fun _ => 0) [.add smallRegion, .alloc 16, .add zeroRegion]).map
      (fun s => (s.live, s.heap)) = some ([⟨0x1024, 16⟩], []) := by
    decide +kernel
  obtain ⟨s, hs, hl⟩ := Option.map_eq_some_iff.mp hrun
  rw [Prod.mk.injEq] at hl
  refine ⟨s, hs, ⟨0x1024, 16⟩, by rw [hl.1]; decide, ?_⟩
  rintro ⟨b, hb, -⟩
  rw [hl.2] at hb
  cases hb

end MoltarOS.Mm
