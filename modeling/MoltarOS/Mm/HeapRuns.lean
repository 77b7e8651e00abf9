import MoltarOS.Mm.Superblocks
import MoltarOS.Lib.Machine

/-!
# Runs of the heap

Any sequence of `memheap_add_block`, `memheap_alloc`, `memheap_free` and writes by the
heap's users to the bytes they were given. The state keeps, beside the memory and the
heap, what a caller knows: the live allocations (pointers returned and not yet freed,
with the sizes asked for) and the regions added.

`HeapState.Inv` holds in every state of every run (`inv_of_run`): the bitmap of every
superblock of the list encodes exactly the live allocations placed in it. A superblock
at address `0` ends the list at its head (`NULL`), so the invariant tells the superblocks
of the list from the regions added.
-/

namespace MoltarOS.Mm

open MoltarOS.Lib MoltarOS.Lib.Word MoltarOS.Libc

variable {gap : ℕ}

/-! ### States and operations -/

/-- The regions have no byte in common. -/
def Region.Apart (r t : Region gap) : Prop :=
  r.addr.toNat + r.size.toNat ≤ t.addr.toNat ∨ t.addr.toNat + t.size.toNat ≤ r.addr.toNat

instance : Std.Symm (@Region.Apart gap) := ⟨fun _ _ => Or.symm⟩

instance (r t : Region gap) : Decidable (r.Apart t) := inferInstanceAs (Decidable (_ ∨ _))

/-- The memory, the heap, and what has been asked of it. -/
structure HeapState (gap : ℕ := 1) where
  /-- The memory. -/
  mem : Mem
  /-- The superblocks from `head` on. -/
  heap : MemHeap
  /-- The allocations returned and not yet freed. -/
  live : List Alloc
  /-- The regions added. -/
  added : List (Region gap)

/-- What can happen to a heap. -/
inductive HeapOp (gap : ℕ := 1) where
  /-- `memheap_add_block` on a region. -/
  | add (r : Region gap)
  /-- `memheap_alloc`. -/
  | alloc (size : UInt32)
  /-- `memheap_free`. -/
  | free (p : UInt32)
  /-- A user writes a byte. -/
  | write (a : UInt32) (v : UInt8)

namespace HeapState

/-- After `memheap_init`, in any memory. -/
def init (m : Mem) : HeapState gap := ⟨m, memheapInit, [], []⟩

/-- One operation. A region is disjoint from those before it, a size is at least `1`, a
pointer that is freed is live, and users write inside their allocations. -/
def step (s : HeapState gap) : HeapOp gap → Option (HeapState gap)
  | .add r =>
    if ∀ t ∈ s.added, r.Apart t then
      let (m, heap) := memheapAddBlock s.mem s.heap r.addr r.size r.blockSize
      some { s with mem := m, heap := heap, added := r :: s.added }
    else none
  | .alloc size =>
    if 1 ≤ size.toNat then
      match memheapAlloc s.mem size s.heap with
      | some (p, m, heap) => some { s with mem := m, heap := heap, live := ⟨p, size⟩ :: s.live }
      | none => some s
    else none
  | .free p =>
    if ∃ x ∈ s.live, x.ptr = p then
      let (m, heap) := memheapFree s.mem p s.heap
      some { s with mem := m, heap := heap, live := s.live.filter (·.ptr ≠ p) }
    else none
  | .write a v =>
    if ∃ x ∈ s.live, x.Covers a then some { s with mem := s.mem.set a v } else none

end HeapState

/-- The heap as a machine. -/
def heapMachine : Machine (HeapState gap) (HeapOp gap) := ⟨HeapState.step⟩

theorem Region.Apart.superblock {r t : Region gap} (h : r.Apart t) : r.superblock.Apart t.superblock :=
  superblockOf_apart r.room t.room h

/-! ### The invariant -/

/-- The superblock `b` is that of region `r`, whatever its `used`. -/
def Memblock.Of (b : Memblock) (r : Region) : Prop := b = { r.superblock with used := b.used }

/-- Placement does not depend on `used`. -/
theorem Memblock.Of.placed_iff {b : Memblock} {r : Region} (h : b.Of r) {x : Alloc} {t : Seg} :
    Placed b x t ↔ Placed r.superblock x t := by
  rw [h]
  exact ⟨fun hx => hx.of_used, fun hx => hx.of_used⟩

/-- **The invariant of the heap.** -/
structure HeapState.Inv (s : HeapState) : Prop where
  /-- The regions are disjoint. -/
  regions : s.added.Pairwise Region.Apart
  /-- The superblocks of the list are those of regions added. -/
  blocks : ∀ b ∈ s.heap, ∃ r ∈ s.added, b.Of r
  /-- None occurs twice. -/
  nodup : (s.heap.map (·.addr)).Nodup
  /-- Each encodes the live allocations placed in it. -/
  inv : ∀ b ∈ s.heap, BlockInv s.mem b (segsOf b s.live)
  /-- Every live allocation is placed in the superblock of a region, in the list or not. -/
  placed : ∀ x ∈ s.live, 0 < x.size.toNat ∧ ∃ r ∈ s.added, ∃ t, Placed r.superblock x t
  /-- Live allocations are disjoint. -/
  apart : s.live.Pairwise Alloc.Apart
  /-- Unless a superblock at address `0` cut it, the list has all superblocks. -/
  kept : (∀ r ∈ s.added, r.addr ≠ 0) → ∀ r ∈ s.added, ∃ b ∈ s.heap, b.Of r

namespace HeapState.Inv

variable {s : HeapState}

/-- The superblocks of the regions are the sites. -/
theorem superblocks (h : s.Inv) : Superblocks (s.added.map Region.superblock) s.mem s.heap s.live where
  wf := by
    intro c hc
    obtain ⟨r, -, rfl⟩ := List.mem_map.mp hc
    exact r.wf
  apart := List.pairwise_map.mpr (h.regions.imp Region.Apart.superblock)
  blocks b hb := by
    obtain ⟨r, hr, hbr⟩ := h.blocks b hb
    exact ⟨r.superblock, List.mem_map_of_mem hr, hbr⟩
  nodup := h.nodup
  inv := h.inv
  placed x hx := by
    obtain ⟨hpos, r, hr, t, hxt⟩ := h.placed x hx
    exact ⟨hpos, r.superblock, List.mem_map_of_mem hr, t, hxt⟩
  disjoint := h.apart

/-- The invariant of the list gives that of the heap. -/
theorem of_superblocks (h : Superblocks (s.added.map Region.superblock) s.mem s.heap s.live)
    (hregions : s.added.Pairwise Region.Apart)
    (hkept : (∀ r ∈ s.added, r.addr ≠ 0) → ∀ r ∈ s.added, ∃ b ∈ s.heap, b.Of r) :
    s.Inv where
  regions := hregions
  blocks b hb := by
    obtain ⟨c, hc, hbc⟩ := h.blocks b hb
    obtain ⟨r, hr, rfl⟩ := List.mem_map.mp hc
    exact ⟨r, hr, hbc⟩
  nodup := h.nodup
  inv := h.inv
  placed x hx := by
    obtain ⟨hpos, c, hc, t, hxt⟩ := h.placed x hx
    obtain ⟨r, hr, rfl⟩ := List.mem_map.mp hc
    exact ⟨hpos, r, hr, t, hxt⟩
  apart := h.disjoint
  kept := hkept

theorem region_apart (h : s.Inv) {r t : Region} (hr : r ∈ s.added) (ht : t ∈ s.added) (hne : r ≠ t) : r.Apart t :=
  h.regions.forall hr ht hne

/-- Regions whose superblocks hold the same pointer are the same. -/
theorem region_eq (h : s.Inv) {r t : Region} (hr : r ∈ s.added) (ht : t ∈ s.added) {p : UInt32}
    (hrp : r.superblock.Holds p) (htp : t.superblock.Holds p) : r = t := by
  by_contra hne
  exact (h.region_apart hr ht hne).superblock.not_holds hrp htp

/-- Different superblocks of the list are apart. -/
theorem block_apart (h : s.Inv) {b c : Memblock} (hb : b ∈ s.heap) (hc : c ∈ s.heap) (hne : b ≠ c) : b.Apart c :=
  h.superblocks.block_apart hb hc hne

/-- All superblocks of the list end at an address. -/
theorem below (h : s.Inv) {b : Memblock} (hb : b ∈ s.heap) : b.Below := by
  obtain ⟨r, -, hbr⟩ := h.blocks b hb
  exact (Memblock.Like.below_iff hbr).mpr r.below

end HeapState.Inv

theorem init_inv (m : Mem) : (HeapState.init m).Inv :=
  HeapState.Inv.of_superblocks (Superblocks.empty m) List.Pairwise.nil fun _ r hr => by cases hr

/-! ### Steps -/

theorem add_inv {s : HeapState} (h : s.Inv) {r : Region} (hr : ∀ t ∈ s.added, r.Apart t) :
    HeapState.Inv { s with
      mem := r.prepared s.mem
      heap := if r.addr = 0 then [] else r.superblock :: s.heap
      added := r :: s.added } := by
  have hapart : ∀ c ∈ s.added.map Region.superblock, r.superblock.Apart c := by
    intro c hc
    obtain ⟨t, ht, rfl⟩ := List.mem_map.mp hc
    exact (hr t ht).superblock
  refine HeapState.Inv.of_superblocks (h.superblocks.addBlock r.wf hapart) (List.pairwise_cons.mpr ⟨hr, h.regions⟩) ?_
  by_cases hzero : r.addr = 0
  · exact fun hall => absurd hzero (hall r List.mem_cons_self)
  · simp only [hzero, if_false]
    rintro hall t (_ | ⟨_, ht⟩)
    · exact ⟨r.superblock, List.mem_cons_self, rfl⟩
    · obtain ⟨b, hb, hbt⟩ := h.kept (fun u hu => hall u (List.mem_cons_of_mem r hu)) t ht
      exact ⟨b, List.mem_cons_of_mem _ hb, hbt⟩

theorem alloc_inv {s : HeapState} (h : s.Inv) {size p : UInt32} {m : Mem} {heap : MemHeap} (hsize : 0 < size.toNat)
    (ha : memheapAlloc s.mem size s.heap = some (p, m, heap)) :
    HeapState.Inv { s with mem := m, heap := heap, live := ⟨p, size⟩ :: s.live } := by
  refine HeapState.Inv.of_superblocks (h.superblocks.alloc hsize ha) h.regions fun hall r hr => ?_
  obtain ⟨pre, b, b', post, hheap, rfl, hin, -⟩ := memheapAlloc_eq_some ha
  have hb : b ∈ s.heap := by rw [hheap]; simp
  obtain ⟨t, hc⟩ := (h.inv b hb).claimed hsize hin
  obtain ⟨c, hc', hcr⟩ := h.kept hall r hr
  rw [hheap] at hc'
  exact like_replace hc.header hc' hcr

theorem free_inv {s : HeapState} (h : s.Inv) {x : Alloc} (hx : x ∈ s.live) :
    HeapState.Inv { s with
      mem := (memheapFree s.mem x.ptr s.heap).1
      heap := (memheapFree s.mem x.ptr s.heap).2
      live := s.live.filter (·.ptr ≠ x.ptr) } := by
  have hlow : ∀ b ∈ s.heap, b.Holds x.ptr → b.Below := fun b hb _ => h.below hb
  refine HeapState.Inv.of_superblocks (h.superblocks.free hx hlow) h.regions fun hall r hr => ?_
  obtain ⟨c, hc, hcr⟩ := h.kept hall r hr
  rcases h.superblocks.free_cases hx hlow with ⟨pre, b, post, t, hheap, -, -, heq, hrel⟩ | ⟨-, heq⟩
  · simp only [heq]
    rw [hheap] at hc
    exact like_replace hrel.header hc hcr
  · simp only [heq]
    exact ⟨c, hc, hcr⟩

/-- **`memheap_free` of a live allocation placed in a superblock of the list.** -/
theorem memheapFree_eq {s : HeapState} (h : s.Inv) {b : Memblock} (hb : b ∈ s.heap) {x : Alloc} {t : Seg}
    (hx : x ∈ s.live) (hxt : Placed b x t) :
    ∃ pre post, s.heap = pre ++ b :: post ∧
      memheapFree s.mem x.ptr s.heap = ((freeIn s.mem x.ptr b).1, pre ++ (freeIn s.mem x.ptr b).2 :: post) ∧
      Released s.mem b t (freeIn s.mem x.ptr b).1 (freeIn s.mem x.ptr b).2 := by
  obtain ⟨pre, post, hheap⟩ := List.append_of_mem hb
  have hholds := hxt.holds (h.inv b hb).wf (h.placed x hx).1
  exact ⟨pre, post, hheap, h.superblocks.memheapFree_at hheap hholds,
    (h.inv b hb).freeIn_eq (h.below hb) ⟨x, hx, hxt⟩ hxt.ptr⟩

/-- A byte of a live allocation is in no bitmap. -/
theorem not_inBitmap_of_covers {s : HeapState} (h : s.Inv) {x : Alloc} (hx : x ∈ s.live) {a : UInt32}
    (ha : x.Covers a) {r : Region} (hr : r ∈ s.added) : ¬ r.superblock.InBitmap a :=
  h.superblocks.not_inBitmap_of_covers hx ha (List.mem_map_of_mem hr)

theorem write_inv {s : HeapState} (h : s.Inv) {x : Alloc} (hx : x ∈ s.live) {a : UInt32} (ha : x.Covers a) (v : UInt8) :
    HeapState.Inv { s with mem := s.mem.set a v } :=
  HeapState.Inv.of_superblocks (h.superblocks.write hx ha v) h.regions h.kept

/-! ### Runs -/

theorem step_inv {s t : HeapState} {op : HeapOp} (h : s.Inv) (hs : heapMachine.step s op = some t) : t.Inv := by
  cases op with
  | add r =>
    simp only [heapMachine, HeapState.step, r.memheapAddBlock_eq] at hs
    split at hs
    · next hr =>
      cases hs
      exact add_inv h hr
    · cases hs
  | alloc size =>
    simp only [heapMachine, HeapState.step] at hs
    split_ifs at hs with hsize
    split at hs
    · next p m heap heq =>
      cases hs
      exact alloc_inv h hsize heq
    · cases hs
      exact h
  | free p =>
    simp only [heapMachine, HeapState.step] at hs
    split_ifs at hs with hp
    cases hs
    obtain ⟨x, hx, rfl⟩ := hp
    exact free_inv h hx
  | write a v =>
    simp only [heapMachine, HeapState.step] at hs
    split_ifs at hs with ha
    cases hs
    obtain ⟨x, hx, hxa⟩ := ha
    exact write_inv h hx hxa v

/-- **The invariant holds in every state of every run.** -/
theorem inv_of_run {m : Mem} {ops : List HeapOp} {s : HeapState} (h : heapMachine.run (HeapState.init m) ops = some s) :
    s.Inv :=
  heapMachine.invariant (fun _ _ _ => step_inv) (init_inv m) h

end MoltarOS.Mm
