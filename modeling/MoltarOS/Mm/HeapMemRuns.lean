import Mathlib.Data.List.Perm.Subperm
import MoltarOS.Mm.HeapMem

/-!
# The heap in memory is the heap

Runs of `memheap_add_block`, `memheap_alloc`, `memheap_free` and of writes by users, with the headers and the bitmaps
in the one memory that users write to as well. `Rep` relates it to the heap of `HeapRuns`: the headers are those of
its superblocks, linked from the word at `heap` on, the bitmaps hold the same allocations, and all other bytes are
the same. (The identifiers in the bitmaps may differ, as they depend on bytes next to the bitmaps; `HeapSecrecy` says
that this does not matter.)

## What is proved

* `rep_add`, `rep_alloc`, `rep_free`, `rep_write` — each operation is enabled where that of `HeapRuns` is, and keeps
  the relation.
* `rawMachine_refines` — so the runs are the same: the same pointers, live allocations, counters and user data.
-/

namespace MoltarOS.Mm.Raw

open MoltarOS.Lib MoltarOS.Lib.Word MoltarOS.Lib.Mem MoltarOS.Libc

/-! ### States and operations -/

/-- The memory, and what has been asked of the heap in it. -/
structure RawState where
  /-- The memory. -/
  mem : Mem
  /-- The allocations returned and not yet freed. -/
  live : List Alloc
  /-- The regions added. -/
  added : List Region

namespace RawState

/-- After `memheap_init`. -/
def init (m : Mem) (heap : UInt32) : RawState := ⟨memheapInit m heap, [], []⟩

/-- One operation on the heap at `heap`, as in `HeapState.step`. -/
def step (heap : UInt32) (c : RawState) : HeapOp → Option RawState
  | .add r =>
    if ∀ t ∈ c.added, r.Apart t then
      some { c with mem := memheapAddBlock c.mem heap r.addr r.size r.blockSize, added := r :: c.added }
    else none
  | .alloc size =>
    if 1 ≤ size.toNat then
      (memheapAlloc c.mem heap size (c.added.length + 1)).map fun (p, m) =>
        { c with mem := m, live := if p = 0 then c.live else ⟨p, size⟩ :: c.live }
    else none
  | .free p =>
    if ∃ x ∈ c.live, x.ptr = p then
      (memheapFree c.mem heap p (c.added.length + 1)).map fun m =>
        { c with mem := m, live := c.live.filter (·.ptr ≠ p) }
    else none
  | .write a v => if ∃ x ∈ c.live, x.Covers a then some { c with mem := c.mem.set a v } else none

/-- The heap whose superblocks are those of a list. -/
def view (c : RawState) (l : MemHeap) : HeapState := ⟨c.mem, l, c.live, c.added⟩

end RawState

/-- The heap in memory as a machine. -/
def rawMachine (heap : UInt32) : Machine RawState HeapOp := ⟨RawState.step heap⟩

/-- The byte belongs to the word at `heap`. -/
def InHead (heap a : UInt32) : Prop := heap.toNat ≤ a.toNat ∧ a.toNat < heap.toNat + 4

/-- The region does not hold the word at `heap`. -/
def Clear (heap : UInt32) (r : Region) : Prop :=
  heap.toNat + 4 ≤ r.addr.toNat ∨ r.addr.toNat + r.size.toNat ≤ heap.toNat

/-- What an operation is given is clear of that word. -/
def ClearOp (heap : UInt32) : HeapOp → Prop
  | .add r => Clear heap r
  | _ => True

instance (heap : UInt32) : DecidablePred (ClearOp heap)
  | .add _ => inferInstanceAs (Decidable (_ ∨ _))
  | .alloc _ | .free _ | .write _ _ => .isTrue trivial

/-- The byte belongs neither to the list nor to a header or a bitmap. -/
def Other (heap : UInt32) (added : List Region) (a : UInt32) : Prop :=
  ¬ InHead heap a ∧ ∀ r ∈ added, ¬ r.InHeader a ∧ ¬ r.superblock.InBitmap a

/-- **The memory holds the heap.** -/
structure Rep (heap : UInt32) (c : RawState) (s : HeapState) : Prop where
  /-- The bitmaps hold the live allocations, and those are the same. -/
  agree : s.Agree (c.view s.heap)
  /-- The headers. -/
  listed : Listed c.mem heap s.heap
  /-- The word at `heap` is in no region. -/
  clear : ∀ r ∈ s.added, Clear heap r
  /-- All other bytes. -/
  other : ∀ a, Other heap s.added a → c.mem a = s.mem a

/-! ### Where the bytes are -/

variable {heap a : UInt32} {r t : Region} {s s' : HeapState} {c c' : RawState} {b : Memblock} {m m' : Mem}

/-- A bitmap is in the data of its region. -/
theorem inData_of_inBitmap (ha : r.superblock.InBitmap a) : r.InData a := by
  have hcount := r.wf.count_add_le
  have htotal := r.toNat_totalSize
  have hroom := r.room
  have hpos := r.wf.blockPos
  have haddr : r.superblock.addr = r.addr := rfl
  rw [Memblock.InBitmap, Memblock.base, haddr] at ha
  rw [Region.InData]
  omega

theorem not_inHead (hr : Clear heap r) (ha : r.InHeader a ∨ r.superblock.InBitmap a) : ¬ InHead heap a := by
  have hroom := r.room
  have hin : r.addr.toNat ≤ a.toNat ∧ a.toNat < r.addr.toNat + r.size.toNat := by
    rcases ha with ha | ha
    · rw [Region.InHeader] at ha
      omega
    · have hdata := inData_of_inBitmap ha
      rw [Region.InData] at hdata
      omega
  rw [Clear] at hr
  rw [InHead]
  omega

/-- Headers and bitmaps have no byte in common. -/
theorem not_inBitmap (h : s.Inv) (hr : r ∈ s.added) (ht : t ∈ s.added) (ha : r.InHeader a) :
    ¬ t.superblock.InBitmap a := fun hbit =>
  not_inHeader_of_inData h ht hr (inData_of_inBitmap hbit) ha

theorem inBitmap_iff (hb : b.Of r) : b.InBitmap a ↔ r.superblock.InBitmap a := Memblock.Like.inBitmap_iff hb

theorem addr_of (hb : b.Of r) : b.addr = r.addr := congrArg Memblock.addr hb

theorem inHeader_iff (hb : b.Of r) : InHeader b.addr a ↔ r.InHeader a := by
  rw [addr_of hb]
  rfl

/-- The word at `heap` depends on its bytes. -/
theorem load32_head (hheap : heap.toNat + 4 ≤ 2 ^ 32) (h : ∀ a, InHead heap a → m' a = m a) :
    m'.load32 heap = m.load32 heap :=
  load32_congr fun a ha => h a ((dist_lt_iff hheap).mp ha)

theorem store32_head (hheap : heap.toNat + 4 ≤ 2 ^ 32) (ha : ¬ InHead heap a) (v : UInt32) :
    m.store32 heap v a = m a := by
  rw [store32_apply, if_neg fun hlt => ha ((dist_lt_iff hheap).mp hlt)]

/-- The heap has no more superblocks than regions were added. -/
theorem length_le (h : s.Inv) : s.heap.length ≤ s.added.length := by
  have hsub : s.heap.map (·.addr) ⊆ s.added.map (·.addr) := fun x hx => by
    obtain ⟨b, hb, rfl⟩ := List.mem_map.mp hx
    obtain ⟨r, hr, hbr⟩ := h.blocks b hb
    exact List.mem_map.mpr ⟨r, hr, (addr_of hbr).symm⟩
  have hle := (List.Nodup.subperm h.nodup hsub).length_le
  rwa [List.length_map, List.length_map] at hle

/-- The invariant is about the bitmaps. -/
theorem inv_congr (h : s.Inv) (heq : ∀ r ∈ s.added, ∀ a, r.superblock.InBitmap a → m' a = s.mem a) :
    HeapState.Inv { s with mem := m' } :=
  HeapState.Inv.of_superblocks (h.superblocks.congr fun b hb a ha => by
    obtain ⟨r, hr, hbr⟩ := h.blocks b hb
    exact heq r hr a ((inBitmap_iff hbr).mp ha)) h.regions h.kept

/-! ### Steps -/

/-- What remains to be shown of a step: the memory has the bitmaps of the step of `HeapRuns`, the headers and the
other bytes. -/
theorem Rep.of_agree {u : HeapState} (h : s.Agree u)
    (hmem : ∀ r ∈ s.added, ∀ a, r.superblock.InBitmap a → m' a = u.mem a)
    (hlisted : Listed m' heap s.heap) (hclear : ∀ r ∈ s.added, Clear heap r)
    (hother : ∀ a, Other heap s.added a → m' a = s.mem a) : Rep heap ⟨m', s.live, s.added⟩ s := by
  have hinv : HeapState.Inv { u with mem := m' } := inv_congr h.right fun r hr => hmem r (h.added ▸ hr)
  rw [← h.heap, ← h.live, ← h.added] at hinv
  exact ⟨⟨h.left, hinv, rfl, rfl, rfl⟩, hlisted, hclear, hother⟩

/-- A byte of a live allocation. -/
theorem other_of_covers (h : s.Inv) (hclear : ∀ r ∈ s.added, Clear heap r) {x : Alloc} (hx : x ∈ s.live)
    (ha : x.Covers a) :
    Other heap s.added a := by
  obtain ⟨-, r, hr, t, hxt⟩ := h.placed x hx
  have hb := hxt.bounds r.wf
  have htotal := r.toNat_totalSize
  have hroom := r.room
  have hbase : r.superblock.base = r.addr.toNat + 20 := rfl
  rw [Alloc.Covers] at ha
  have hdata : r.InData a := by
    rw [Region.InData]
    omega
  refine ⟨fun hhead => ?_, fun u hu => ⟨not_inHeader_of_inData h hr hu hdata, not_inBitmap_of_covers h hx ha hu⟩⟩
  have hout := hclear r hr
  rw [Clear] at hout
  rw [InHead] at hhead
  omega

/-- A user writes a byte. -/
theorem rep_write (h : Rep heap c s) (hheap : heap.toNat + 4 ≤ 2 ^ 32) (a : UInt32) (v : UInt8) :
    Option.Rel (Rep heap) (c.step heap (.write a v)) (s.step (.write a v)) := by
  have hlive : c.live = s.live := h.agree.live.symm
  have hadded : c.added = s.added := h.agree.added.symm
  simp only [RawState.step, HeapState.step, hlive, hadded]
  split_ifs with hx
  · obtain ⟨x, hx, hxa⟩ := hx
    have hinv := h.agree.left
    have hother := other_of_covers hinv h.clear hx hxa
    have hne : ∀ x, ¬ Other heap s.added x → x ≠ a := fun x hx he => hx (he ▸ hother)
    have hset : ∀ x, ¬ Other heap s.added x → c.mem.set a v x = c.mem x := fun x hx => set_of_ne c.mem v (hne x hx)
    have hinv' := write_inv hinv hx hxa v
    have hagree : HeapState.Agree { s with mem := s.mem.set a v } (c.view s.heap) :=
      ⟨hinv', h.agree.right, rfl, h.agree.live, h.agree.added⟩
    have hlisted : Listed (c.mem.set a v) heap s.heap := by
      refine h.listed.congr (load32_head hheap fun x hx => hset x fun ho => ho.1 hx)
        (fun b hb => fits_of_wf (hinv.inv b hb).wf) fun b hb x hx => hset x fun ho => ?_
      obtain ⟨r, hr, hbr⟩ := hinv.blocks b hb
      exact (ho.2 r hr).1 ((inHeader_iff hbr).mp hx)
    have hdata : ∀ x, Other heap s.added x → c.mem.set a v x = s.mem.set a v x := fun x hx => by
      rw [set_apply, set_apply, h.other x hx]
    exact .some (Rep.of_agree hagree (fun r hr x hx => hset x fun ho => (ho.2 r hr).2 hx) hlisted h.clear hdata)
  · exact .none

/-! ### Adding -/

/-- The bitmap that `memheap_add_block` writes does not depend on what was there. -/
theorem prepared_congr (ha : r.superblock.InBitmap a) : r.prepared m' a = r.prepared m a := by
  have hbase := r.wf.toNat_bitmap
  have hcount := r.wf.count_add_le
  have hfits := r.wf.fits
  have hpos := r.wf.blockPos
  rw [Memblock.InBitmap] at ha
  have hbit : r.superblock.base + r.superblock.count ≤ 2 ^ 32 := by
    rw [Memblock.base]
    omega
  have hin : dist (memblockGetBitmap r.addr) a < ((r.size - sizeofMemblock) / r.blockSize).toNat := by
    have hdiv : ((r.size - sizeofMemblock) / r.blockSize).toNat = r.superblock.count := UInt32.toNat_div _ _
    have hbm : (memblockGetBitmap r.addr).toNat = r.superblock.base := hbase
    rw [hdiv, dist_lt_iff (by omega)]
    omega
  have happly : ∀ m : Mem, r.prepared m a = memset (memset m (memblockGetBitmap r.addr) FREE
      ((r.size - sizeofMemblock) / r.blockSize)) (memblockGetBitmap r.addr) 1 r.superblock.used a := fun _ => rfl
  rw [happly, happly, memset_apply, memset_apply, memset_apply, memset_apply, if_pos hin, if_pos hin]

/-- The words of a header, and the one at `heap`. -/
theorem apart_head (hheap : heap.toNat + 4 ≤ 2 ^ 32) (hr : Clear heap r) {k : UInt32} (hk : k.toNat + 4 ≤ 20) :
    WordsApart (r.addr + k) heap := by
  have hfits := r.fits
  have hroom := r.room
  have hadd : (r.addr + k).toNat = r.addr.toNat + k.toNat := toNat_add_of_lt (by omega)
  rcases hr with hlt | hlt
  · exact (wordsApart_of_le (by omega) (by omega)).symm
  · exact wordsApart_of_le (by omega) (by omega)

/-- **What `memheap_add_block` does.** -/
structure Added (m : Mem) (heap : UInt32) (r : Region) (m' : Mem) : Prop where
  /-- The region is the head of the list. -/
  head : m'.load32 heap = r.addr
  /-- Behind it comes what was the head before. -/
  next : m'.load32 (r.addr + next) = m.load32 heap
  /-- Its header. -/
  header : readMemblock m' r.addr = r.superblock
  /-- Its bitmap. -/
  bitmap : ∀ m₀ a, r.superblock.InBitmap a → m' a = r.prepared m₀ a
  /-- Nothing else is written. -/
  frame : ∀ a, ¬ InHead heap a → ¬ r.InHeader a → ¬ r.superblock.InBitmap a → m' a = m a

theorem memheapAddBlock_spec (hheap : heap.toNat + 4 ≤ 2 ^ 32) (hr : Clear heap r) (m : Mem) :
    Added m heap r (memheapAddBlock m heap r.addr r.size r.blockSize) := by
  have hfits : r.addr.toNat + 20 ≤ 2 ^ 32 := fits_of_wf r.wf
  -- the memory with `total_size`, `block_size`, `next` and the head of the list
  let m₁ := m.store32 (r.addr + totalSize) (r.size - sizeofMemblock)
  let m₂ := m₁.store32 (r.addr + blockSize) r.blockSize
  let m₃ := m₂.store32 (r.addr + Raw.next) (m₂.load32 heap)
  let m₄ := m₃.store32 heap r.addr
  have htotal : m₄.load32 (r.addr + totalSize) = r.size - sizeofMemblock := by
    rw [load32_store32_apart _ (apart_head hheap hr (by decide)).symm,
      load32_store32_apart _ (wordsApart_add r.addr (by decide)),
      load32_store32_apart _ (wordsApart_add r.addr (by decide)), load32_store32]
  have hblock : m₄.load32 (r.addr + blockSize) = r.blockSize := by
    rw [load32_store32_apart _ (apart_head hheap hr (by decide)).symm,
      load32_store32_apart _ (wordsApart_add r.addr (by decide)), load32_store32]
  have hhead : m₂.load32 heap = m.load32 heap := by
    rw [load32_store32_apart _ (apart_head hheap hr (by decide)),
      load32_store32_apart _ (apart_head hheap hr (by decide))]
  have hmem : memheapAddBlock m heap r.addr r.size r.blockSize =
      (r.prepared m₄).store32 (r.addr + used) r.superblock.used := by
    have hcount : memblockGetBlockCount m₄ r.addr = (r.size - sizeofMemblock) / r.blockSize := by
      rw [memblockGetBlockCount, htotal, hblock]
    change ((memset (memset m₄ _ FREE (memblockGetBlockCount m₄ r.addr)) _ 1
      (CEILING (memblockGetBlockCount m₄ r.addr) _)).store32
      (r.addr + used) (CEILING (memblockGetBlockCount m₄ r.addr) _)) = _
    rw [hcount]
    rfl
  have hprepared : ∀ a, ¬ r.superblock.InBitmap a → r.prepared m₄ a = m₄ a :=
    fun a ha => memheapAddBlock_frame r.wf m₄ [] ha
  have hheader : ∀ a, r.InHeader a → r.prepared m₄ a = m₄ a := fun a ha =>
    hprepared a fun hbit => not_inBitmap_of_inHeader (b := r.superblock) ha hbit
  rw [hmem]
  constructor
  · rw [load32_store32_apart _ (apart_head hheap hr (by decide)), load32_head (m := m₄) hheap fun a ha =>
      hprepared a fun hbit =>
      not_inHead hr (.inr hbit) ha]
    exact load32_store32 _ _ _
  · rw [load32_store32_apart _ (wordsApart_add r.addr (by decide)), load32_header hfits (by decide) hheader,
      load32_store32_apart _ (apart_head hheap hr (by decide)).symm, load32_store32, hhead]
  · rw [readMemblock_store_used, readMemblock_congr hfits hheader, readMemblock, htotal, hblock]
    rfl
  · intro m₀ a ha
    rw [store32_header hfits (by decide) fun hin => not_inBitmap_of_inHeader (b := r.superblock) hin ha]
    exact prepared_congr ha
  · intro a hhead hin hbit
    have hstore : ∀ (m : Mem) (k v : UInt32), k.toNat + 4 ≤ 20 → m.store32 (r.addr + k) v a = m a := fun m k v hk =>
      store32_header hfits hk hin
    calc (r.prepared m₄).store32 (r.addr + used) r.superblock.used a = m₄ a :=
      (hstore _ _ _ (by decide)).trans (hprepared a hbit)
      _ = m₃ a := store32_head hheap hhead _
      _ = m₁ a := (hstore m₂ _ _ (by decide)).trans (hstore m₁ _ _ (by decide))
      _ = m a := hstore m _ _ (by decide)

/-- A region is added. -/
theorem rep_add (h : Rep heap c s) (hheap : heap.toNat + 4 ≤ 2 ^ 32) (hr : Clear heap r) :
    Option.Rel (Rep heap) (c.step heap (.add r)) (s.step (.add r)) := by
  have hlive : c.live = s.live := h.agree.live.symm
  have hadded : c.added = s.added := h.agree.added.symm
  simp only [RawState.step, HeapState.step, hlive, hadded]
  split_ifs with hapart
  swap
  · exact .none
  have hinv := h.agree.left
  obtain ⟨hhead, hnext, hheader, hbitmap, hframe⟩ := memheapAddBlock_spec hheap hr c.mem
  generalize memheapAddBlock c.mem heap r.addr r.size r.blockSize = m' at hhead hnext hheader hbitmap hframe
  -- the steps of the two heaps that agree
  have hguard : ∀ t ∈ (c.view s.heap).added, r.Apart t := by
    rw [← h.agree.added]
    exact hapart
  have hs : heapMachine.step s (.add r) =
    some ⟨r.prepared s.mem, if r.addr = 0 then [] else r.superblock :: s.heap, s.live, r :: s.added⟩ := if_pos hapart
  have ht : heapMachine.step (c.view s.heap) (.add r) =
    some ⟨r.prepared c.mem, if r.addr = 0 then [] else r.superblock :: s.heap, c.live, r :: c.added⟩ := if_pos hguard
  have hagree := h.agree.add hs ht
  have hadd : Rep heap ⟨m', s.live, r :: s.added⟩
      ⟨r.prepared s.mem, if r.addr = 0 then [] else r.superblock :: s.heap, s.live, r :: s.added⟩ := by
    refine Rep.of_agree hagree (fun t ht a ha => ?_) ?_ (List.forall_mem_cons.mpr ⟨hr, h.clear⟩) fun a ha => ?_
    · by_cases hbit : r.superblock.InBitmap a
      · exact hbitmap c.mem a hbit
      · have htr := (List.mem_cons.mp ht).resolve_left fun he => hbit (he ▸ ha)
        have hout : ¬ r.InHeader a := fun hin => not_inBitmap hagree.left List.mem_cons_self ht hin ha
        exact (hframe a (not_inHead (h.clear t htr) (.inr ha)) hout hbit).trans
          (memheapAddBlock_frame r.wf c.mem [] hbit).symm
    · split_ifs with hzero
      · exact ⟨hhead.trans hzero, fun b hb => absurd hb List.not_mem_nil, fun b hb => absurd hb List.not_mem_nil⟩
      · have hrest : Listed m' (r.addr + next) s.heap := by
          refine h.listed.congr hnext (fun b hb => fits_of_wf (hinv.inv b hb).wf) fun b hb a ha => ?_
          obtain ⟨t, ht, hbt⟩ := hinv.blocks b hb
          have hat := (inHeader_iff hbt).mp ha
          refine hframe a (not_inHead (h.clear t ht) (.inl hat)) (fun hin => ?_)
            (not_inBitmap hagree.left (List.mem_cons_of_mem r ht) List.mem_cons_self hat)
          have hrt := hapart t ht
          have hroom := r.room
          have hroom' := t.room
          rw [Region.Apart] at hrt
          rw [Region.InHeader] at hin hat
          omega
        exact ⟨⟨hhead, hrest.links⟩, List.forall_mem_cons.mpr ⟨hheader, hrest.headers⟩,
          List.forall_mem_cons.mpr ⟨hzero, hrest.nonnull⟩⟩
    · obtain ⟨hnot, hall⟩ := ha
      obtain ⟨⟨hin, hbit⟩, hrest⟩ := List.forall_mem_cons.mp hall
      calc m' a = c.mem a := hframe a hnot hin hbit
        _ = s.mem a := h.other a ⟨hnot, hrest⟩
        _ = r.prepared s.mem a := (memheapAddBlock_frame r.wf s.mem [] hbit).symm
  exact .some hadd

/-! ### Allocating and freeing -/

/-- What a change of `used` in a superblock, after one of its bitmap from `m` to `m₁`, leaves. -/
structure Touched (heap : UInt32) (s : HeapState) (b : Memblock) (m m₁ m' : Mem) (heap' : MemHeap) : Prop where
  /-- The list, with the new header. -/
  listed : Listed m' heap heap'
  /-- The headers of the others. -/
  others : ∀ c ∈ s.heap, c ≠ b → ∀ a, InHeader c.addr a → m' a = m a
  /-- Its place in the list. -/
  next : m'.load32 (b.addr + next) = m.load32 (b.addr + next)
  /-- What is in no header. -/
  frame : ∀ a, (∀ r ∈ s.added, ¬ r.InHeader a) → m' a = m₁ a

theorem touched {m₁ : Mem} {pre post : MemHeap} (h : s.Inv) (hclear : ∀ r ∈ s.added, Clear heap r)
    (hheap : heap.toNat + 4 ≤ 2 ^ 32) (hs : s.heap = pre ++ b :: post) (hlisted : Listed m heap s.heap)
    (hframe : ∀ a, ¬ b.InBitmap a → m₁ a = m a) (u : UInt32) :
    Touched heap s b m m₁ (m₁.store32 (b.addr + used) u) (pre ++ { b with used := u } :: post) := by
  have hb : b ∈ s.heap := by rw [hs]; simp
  obtain ⟨r, hr, hbr⟩ := h.blocks b hb
  have hfits : ∀ c ∈ s.heap, c.addr.toNat + 20 ≤ 2 ^ 32 := fun c hc => fits_of_wf (h.inv c hc).wf
  have hstore : ∀ a, ¬ InHeader b.addr a → m₁.store32 (b.addr + used) u a = m₁ a := fun a ha =>
    store32_header (hfits b hb) (by decide) ha
  have hnot : ∀ c ∈ s.heap, ∀ a, InHeader c.addr a → ¬ b.InBitmap a := fun c hc a ha hbit => by
    obtain ⟨t, ht, hct⟩ := h.blocks c hc
    exact not_inBitmap h ht hr ((inHeader_iff hct).mp ha) ((inBitmap_iff hbr).mp hbit)
  have hother : ∀ c ∈ s.heap, c ≠ b → ∀ a, InHeader c.addr a →
      m₁.store32 (b.addr + used) u a = m a := fun c hc hne a ha => by
    have hap := h.block_apart hc hb hne
    rw [hstore a fun hab => ?_, hframe a (hnot c hc a ha)]
    rw [InHeader] at ha hab
    rw [Memblock.Apart] at hap
    omega
  have hown : ∀ a, InHeader b.addr a → m₁ a = m a := fun a ha => hframe a (hnot b hb a ha)
  have hslot : (m₁.store32 (b.addr + used) u).load32 heap = m.load32 heap := load32_head hheap fun a ha => by
    have hin := fun hin => not_inHead (hclear r hr) (.inl ((inHeader_iff hbr).mp hin)) ha
    have hbit := fun hbit => not_inHead (hclear r hr) (.inr ((inBitmap_iff hbr).mp hbit)) ha
    rw [hstore a hin, hframe a hbit]
  have hnext : (m₁.store32 (b.addr + used) u).load32 (b.addr + next) = m.load32 (b.addr + next) := by
    rw [load32_store32_apart _ (wordsApart_add b.addr (by decide))]
    exact load32_header (hfits b hb) (by decide) hown
  refine ⟨⟨?_, fun c hc => ?_, fun c hc => ?_⟩, hother, hnext, fun a ha => hstore a fun hin =>
    ha r hr ((inHeader_iff hbr).mp hin)⟩
  · have haddr : (pre ++ { b with used := u } :: post).map (·.addr) = s.heap.map (·.addr) := by
      rw [hs, List.map_append, List.map_append, List.map_cons, List.map_cons]
    rw [haddr]
    refine hlisted.links.congr hslot fun e he => ?_
    obtain ⟨c, hc, rfl⟩ := List.mem_map.mp he
    rcases eq_or_ne c b with rfl | hcb
    · exact hnext
    · exact load32_header (hfits c hc) (by decide) (hother c hc hcb)
  · rcases (mem_replace_iff (hs ▸ h.nodup)).mp hc with rfl | ⟨hc, hne⟩
    · rw [readMemblock_store_used, readMemblock_congr (hfits b hb) hown, hlisted.headers b hb]
    · rw [← hs] at hc
      exact (readMemblock_congr (hfits c hc) (hother c hc hne)).trans (hlisted.headers c hc)
  · rcases (mem_replace_iff (hs ▸ h.nodup)).mp hc with rfl | ⟨hc, -⟩
    · exact hlisted.nonnull b hb
    · exact hlisted.nonnull c (hs ▸ hc)

/-- What is in no bitmap stays. -/
theorem alloc_frame (h : s.Inv) {size p : UInt32} (hsize : 0 < size.toNat) {l : MemHeap}
    (ha : Mm.memheapAlloc s.mem size s.heap = some (p, m', l)) (hout : ∀ r ∈ s.added, ¬ r.superblock.InBitmap a) :
    m' a = s.mem a := by
  obtain ⟨pre, b, b', post, hheap, -, hin, -⟩ := memheapAlloc_eq_some ha
  have hb : b ∈ s.heap := by rw [hheap]; simp
  obtain ⟨r, hr, hbr⟩ := h.blocks b hb
  obtain ⟨t, hclaim⟩ := (h.inv b hb).claimed hsize hin
  exact hclaim.frame a fun hbit => hout r hr ((inBitmap_iff hbr).mp hbit)

theorem free_frame (h : s.Inv) {x : Alloc} (hx : x ∈ s.live) (hout : ∀ r ∈ s.added, ¬ r.superblock.InBitmap a) :
    (Mm.memheapFree s.mem x.ptr s.heap).1 a = s.mem a := by
  rcases h.superblocks.free_cases hx fun b hb _ => h.below hb with ⟨pre, b, post, t, hheap, -, -, heq, hrel⟩ | ⟨-, heq⟩
  · obtain ⟨r, hr, hbr⟩ := h.blocks b (by rw [hheap]; simp)
    rw [heq]
    exact hrel.frame a fun hbit => hout r hr ((inBitmap_iff hbr).mp hbit)
  · rw [heq]

/-- `memheap_alloc` comes to the memory that `HeapRuns` comes to, with the headers in it. -/
theorem allocLoop_spec (h : s.Inv) (hclear : ∀ r ∈ s.added, Clear heap r) (hheap : heap.toNat + 4 ≤ 2 ^ 32)
    (hlisted : Listed s.mem heap s.heap) {size p : UInt32} (hsize : 0 < size.toNat) {m₁ : Mem} {l : MemHeap}
    (ha : Mm.memheapAlloc s.mem size s.heap = some (p, m₁, l)) {fuel : ℕ} (hfuel : s.heap.length < fuel) :
    p ≠ 0 ∧ ∃ m', allocLoop size s.mem fuel (s.mem.load32 heap) = some (p, m') ∧ Listed m' heap l ∧
      ∀ a, (∀ r ∈ s.added, ¬ r.InHeader a) → m' a = m₁ a := by
  obtain ⟨pre, b, b', post, hs, rfl, hin, hpre⟩ := memheapAlloc_eq_some ha
  have hb : b ∈ s.heap := by rw [hs]; simp
  obtain ⟨t, hclaim⟩ := (h.inv b hb).claimed hsize hin
  refine ⟨fun hzero => ?_, m₁.store32 (b.addr + used) b'.used, ?_, ?_⟩
  · have hptr := hclaim.ptr
    rw [hzero, Memblock.base, UInt32.toNat_zero] at hptr
    omega
  · refine allocLoop_some (hs ▸ hlisted) (fun c hc => ⟨_, h.inv c (hs ▸ hc)⟩) hsize hpre hin ?_
    rw [hs, List.length_append] at hfuel
    omega
  · have htouched := touched h hclear hheap hs hlisted hclaim.frame b'.used
    have hb' : { b with used := b'.used } = b' := by rw [hclaim.header]
    rw [hb'] at htouched
    exact ⟨htouched.listed, htouched.frame⟩

/-- So does `memheap_free`. -/
theorem freeOuter_spec (h : s.Inv) (hclear : ∀ r ∈ s.added, Clear heap r) (hheap : heap.toNat + 4 ≤ 2 ^ 32)
    (hlisted : Listed s.mem heap s.heap) {x : Alloc} (hx : x ∈ s.live) {fuel : ℕ} (hfuel : s.heap.length < fuel) :
    ∃ m', freeOuter x.ptr s.mem fuel (s.mem.load32 heap) = some m' ∧
    Listed m' heap (Mm.memheapFree s.mem x.ptr s.heap).2 ∧
      ∀ a, (∀ r ∈ s.added, ¬ r.InHeader a) → m' a = (Mm.memheapFree s.mem x.ptr s.heap).1 a := by
  have hcases := h.superblocks.free_cases hx fun b hb _ => h.below hb
  rcases hcases with ⟨pre, b, post, t, hs, hbt, hholds, heq, hrel⟩ | ⟨hout, heq⟩
  · have hb : b ∈ s.heap := by rw [hs]; simp
    have hwf := (h.inv b hb).wf
    obtain ⟨hpre, hpost⟩ := h.superblocks.others_not_holds hs hholds
    have htouched := touched h hclear hheap hs hlisted hrel.frame (Mm.freeIn s.mem x.ptr b).2.used
    have hb' : { b with used := (Mm.freeIn s.mem x.ptr b).2.used } = (Mm.freeIn s.mem x.ptr b).2 := by rw [hrel.header]
    rw [hb'] at htouched
    have hin : freeIn s.mem x.ptr b.addr = (Mm.freeIn s.mem x.ptr b).1.store32 (b.addr + used)
        (Mm.freeIn s.mem x.ptr b).2.used := by
      rw [freeIn_eq (hlisted.headers b hb) (fun a ha => hrel.frame a (not_inBitmap_of_inHeader ha)) (fits_of_wf hwf),
        if_pos ((h.below hb).holds_iff.mpr hholds)]
    rw [heq]
    refine ⟨_, freeOuter_some (hs ▸ hlisted) hpre hpost hin htouched.next (fun c hc a ha => ?_) (hs ▸ hfuel),
      htouched.listed, htouched.frame⟩
    refine htouched.others c (by rw [hs]; simp [hc]) (fun hcb => ?_) a ha
    exact (hpost c hc).2 (hcb ▸ hholds)
  · rw [heq]
    exact ⟨s.mem, freeOuter_none hlisted hout hfuel, hlisted, fun a _ => rfl⟩

/-- A request. -/
theorem rep_alloc (h : Rep heap c s) (hheap : heap.toNat + 4 ≤ 2 ^ 32) (size : UInt32) :
    Option.Rel (Rep heap) (c.step heap (.alloc size)) (s.step (.alloc size)) := by
  have hlive : c.live = s.live := h.agree.live.symm
  have hadded : c.added = s.added := h.agree.added.symm
  by_cases hsize : 1 ≤ size.toNat
  swap
  · simp only [RawState.step, HeapState.step, if_neg hsize]
    exact .none
  have hinv : (c.view s.heap).Inv := h.agree.right
  have hlength : s.heap.length < c.added.length + 1 := Nat.lt_succ_of_le (length_le hinv)
  have hseen := h.agree.alloc_seen hsize
  simp only [RawState.view] at hseen
  cases h1 : Mm.memheapAlloc s.mem size s.heap with
  | none =>
    rw [h1, Option.map_none, eq_comm, Option.map_eq_none_iff] at hseen
    have hloop := allocLoop_none h.listed (fun b hb => ⟨_, hinv.inv b hb⟩) hsize hseen hlength
    simp only [RawState.step, HeapState.step, if_pos hsize, h1, memheapAlloc, hloop, Option.map_some, if_true]
    exact .some h
  | some r =>
    obtain ⟨p, m₂, l⟩ := r
    rw [h1, Option.map_some, eq_comm, Option.map_eq_some_iff] at hseen
    obtain ⟨⟨p', m₁, l'⟩, h2, heq⟩ := hseen
    obtain ⟨rfl, rfl⟩ := Prod.mk.inj heq
    obtain ⟨hp, m', hloop, hlisted, hframe⟩ :=
      allocLoop_spec hinv (fun r hr => h.clear r (h.agree.added ▸ hr)) hheap h.listed hsize h2 hlength
    have hstep : heapMachine.step s (.alloc size) = some ⟨m₂, l', ⟨p', size⟩ :: s.live, s.added⟩ := by
      simp only [heapMachine, HeapState.step, if_pos hsize, h1]
    have hstep' : heapMachine.step (c.view s.heap) (.alloc size) = some ⟨m₁, l', ⟨p', size⟩ :: c.live, c.added⟩ := by
      simp only [heapMachine, HeapState.step, if_pos hsize, RawState.view, h2]
    have hagree := (h.agree.alloc hstep hstep').1
    have hrep : Rep heap ⟨m', ⟨p', size⟩ :: s.live, s.added⟩ ⟨m₂, l', ⟨p', size⟩ :: s.live, s.added⟩ := by
      refine Rep.of_agree hagree (fun r hr a ha => ?_) hlisted h.clear fun a ha => ?_
      · exact hframe a fun t ht hin => not_inBitmap hagree.left (hadded ▸ ht) hr hin ha
      · calc m' a = m₁ a := hframe a fun r hr => (ha.2 r (hadded ▸ hr)).1
          _ = c.mem a := alloc_frame hinv hsize h2 fun r hr => (ha.2 r (hadded ▸ hr)).2
          _ = s.mem a := h.other a ha
          _ = m₂ a := (alloc_frame h.agree.left hsize h1 fun r hr => (ha.2 r hr).2).symm
    simp only [RawState.step, HeapState.step, if_pos hsize, h1, memheapAlloc]
    rw [show c.mem = (c.view s.heap).mem from rfl, hloop, Option.map_some]
    simp only [if_neg hp, hlive, hadded]
    exact .some hrep

/-- A live allocation is freed. -/
theorem rep_free (h : Rep heap c s) (hheap : heap.toNat + 4 ≤ 2 ^ 32) (p : UInt32) :
    Option.Rel (Rep heap) (c.step heap (.free p)) (s.step (.free p)) := by
  have hlive : c.live = s.live := h.agree.live.symm
  have hadded : c.added = s.added := h.agree.added.symm
  by_cases hp : ∃ x ∈ s.live, x.ptr = p
  swap
  · simp only [RawState.step, HeapState.step, hlive, if_neg hp]
    exact .none
  have hinv : (c.view s.heap).Inv := h.agree.right
  have hlength : s.heap.length < c.added.length + 1 := Nat.lt_succ_of_le (length_le hinv)
  have hp' : ∃ x ∈ c.live, x.ptr = p := by rwa [hlive]
  have hstep : heapMachine.step s (.free p) =
    some ⟨(Mm.memheapFree s.mem p s.heap).1, (Mm.memheapFree s.mem p s.heap).2, s.live.filter (·.ptr ≠ p),
      s.added⟩ := if_pos hp
  have hstep' : heapMachine.step (c.view s.heap) (.free p) = some ⟨(Mm.memheapFree c.mem p s.heap).1,
      (Mm.memheapFree c.mem p s.heap).2, c.live.filter (·.ptr ≠ p), c.added⟩ := if_pos hp'
  have hagree := h.agree.free hstep hstep'
  have hsame : (Mm.memheapFree s.mem p s.heap).2 = (Mm.memheapFree c.mem p s.heap).2 := hagree.heap
  obtain ⟨x, hx, rfl⟩ := hp
  obtain ⟨y, hy, hyx⟩ := hp'
  obtain ⟨m', hloop, hlisted, hframe⟩ :=
    freeOuter_spec hinv (fun r hr => h.clear r (h.agree.added ▸ hr)) hheap h.listed (x := y) hy hlength
  rw [hyx] at hloop hlisted hframe
  have hrep : Rep heap ⟨m', s.live.filter (·.ptr ≠ x.ptr), s.added⟩ ⟨(Mm.memheapFree s.mem x.ptr s.heap).1,
      (Mm.memheapFree s.mem x.ptr s.heap).2, s.live.filter (·.ptr ≠ x.ptr), s.added⟩ := by
    refine Rep.of_agree hagree (fun r hr a ha => ?_) (hsame ▸ hlisted) h.clear fun a ha => ?_
    · exact hframe a fun t ht hin => not_inBitmap hagree.left (hadded ▸ ht) hr hin ha
    · calc m' a = (Mm.memheapFree c.mem x.ptr s.heap).1 a := hframe a fun r hr => (ha.2 r (hadded ▸ hr)).1
        _ = c.mem a := hyx ▸ free_frame hinv hy fun r hr => (ha.2 r (hadded ▸ hr)).2
        _ = s.mem a := h.other a ha
        _ = (Mm.memheapFree s.mem x.ptr s.heap).1 a := (free_frame h.agree.left hx fun r hr => (ha.2 r hr).2).symm
  simp only [RawState.step, HeapState.step, memheapFree]
  rw [if_pos ⟨y, hy, hyx⟩, if_pos ⟨x, hx, rfl⟩, show c.mem = (c.view s.heap).mem from rfl, hloop,
    Option.map_some, hlive]
  simp only [hadded]
  exact .some hrep

/-! ### Runs -/

theorem rep_init (hheap : heap.toNat + 4 ≤ 2 ^ 32) (m : Mem) : Rep heap (RawState.init m heap) (HeapState.init m) := by
  refine ⟨⟨init_inv m, init_inv _, rfl, rfl, rfl⟩, ⟨load32_store32 m heap 0, ?_, ?_⟩, ?_, fun a ha =>
    store32_head hheap ha.1 0⟩
  · exact fun b hb => absurd hb List.not_mem_nil
  · exact fun b hb => absurd hb List.not_mem_nil
  · exact fun r hr => absurd hr List.not_mem_nil

/-- **The heap in memory and the heap have the same runs**, and after them the memory holds the heap. -/
theorem rawMachine_refines (hheap : heap.toNat + 4 ≤ 2 ^ 32) (m : Mem) {ops : List HeapOp}
    (hops : ∀ op ∈ ops, ClearOp heap op) :
    Option.Rel (Rep heap) ((rawMachine heap).run (RawState.init m heap) ops)
      (heapMachine.run (HeapState.init m) ops) := by
  refine (rawMachine heap).run_rel (fun c s op h hop => ?_) (rep_init hheap m) hops
  cases op with
  | add r => exact rep_add h hheap hop
  | alloc size => exact rep_alloc h hheap size
  | free p => exact rep_free h hheap p
  | write a v => exact rep_write h hheap a v

/-- Two superblocks in memory. -/
theorem rawMachine_refines_sample :
    ∃ c s, (rawMachine 0x500).run (RawState.init (fun _ => 0) 0x500) sampleOps = some c ∧
    heapMachine.run (HeapState.init fun _ => 0) sampleOps = some s ∧ s.live = [⟨0x1024, 9⟩, ⟨0x1034, 20⟩] ∧
    Rep 0x500 c s := by
  have hrel : Option.Rel (Rep 0x500) ((rawMachine 0x500).run (RawState.init (fun _ => 0) 0x500) sampleOps) _ :=
    rawMachine_refines (by decide) (fun _ => 0) (by decide)
  have hlive : (heapMachine.run (HeapState.init fun _ => 0) sampleOps).map HeapState.live =
      some [⟨0x1024, 9⟩, ⟨0x1034, 20⟩] := by
    decide +kernel
  obtain ⟨s, hs, hl⟩ := Option.map_eq_some_iff.mp hlive
  rw [hs] at hrel
  cases hc : (rawMachine 0x500).run (RawState.init (fun _ => 0) 0x500) sampleOps with
  | none =>
    rw [hc] at hrel
    cases hrel
  | some c =>
    rw [hc] at hrel
    cases hrel with
    | some hrep => exact ⟨c, s, rfl, hs, hl, hrep⟩

end MoltarOS.Mm.Raw
