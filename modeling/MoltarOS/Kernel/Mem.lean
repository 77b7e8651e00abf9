import MoltarOS.Lib.Loop
import MoltarOS.Mm.Alloc
import MoltarOS.Mm.HeapFit

/-!
# Kernel memory

`kernel/mem.c`: `kmalloc` takes memory from the kernel's heap, and when there is none adds a
page that `alloc_block` supplies, as a superblock of blocks of 16 bytes. A request above
`PAGE_SIZE` is refused.

## What is proved

* `kernelInv_of_run` — whatever is allocated and freed, with no request of `0` bytes, the pages of the heap
  are disjoint superblocks and encode what has been allocated in them.
* `kmalloc_iff` — a request is served exactly if it is of at most 3932128 bytes: the header and the bitmap
  take the rest of a page. What `kmalloc` accepts beyond that halts the machine (`kmalloc_lost`).

The last page of the address space may be in the heap. `memheap_free` takes no pointer for one of that
page, so what is allocated there stays allocated; the invariant is about what is held, freed or not.
-/

namespace MoltarOS.Kernel

open MoltarOS.Lib MoltarOS.Lib.Word MoltarOS.Libc MoltarOS.Mm

/-! ### The code -/

/-- `kheap`, the page allocator and the memory. -/
structure KernelMem where
  /-- The memory. -/
  mem : Mem
  /-- The kernel's heap. -/
  kheap : MemHeap
  /-- The page allocator. -/
  alloc : AllocState

/-- `more_memory`. -/
def moreMemory (s : KernelMem) : Except String KernelMem := do
  let (page, alloc, mem) ← allocBlock s.alloc s.mem
  let (mem, kheap) := memheapAddBlock mem s.kheap page PAGE_SIZE 16
  return ⟨mem, kheap, alloc⟩

/-- `mem_init`. -/
def memInit (bootDirectory : PageDirectory) (m : Mem) : KernelMem := ⟨m, memheapInit, allocInit bootDirectory⟩

/-- `memheap_alloc(&kheap, sz)`, `NULL` being `0`. -/
def kheapAlloc (s : KernelMem) (sz : UInt32) : UInt32 × KernelMem :=
  match memheapAlloc s.mem sz s.kheap with
  | some (p, mem, kheap) => (p, { s with mem := mem, kheap := kheap })
  | none => (0, s)

/-- `kmalloc`: if there is no memory, add more and try again. -/
def kmallocRetry (data : UInt32) (s : KernelMem) (sz : UInt32) : Except String (UInt32 × KernelMem) :=
  if data = 0 then do
    let s ← moreMemory s
    return kheapAlloc s sz
  else return (data, s)

/-- `kmalloc(sz)`. An error is the text of the `KPANIC` that halts the machine. -/
def kmalloc (s : KernelMem) (sz : UInt32) : Except String (UInt32 × KernelMem) :=
  if sz > PAGE_SIZE then .error "Bad Allocation Size... Max: %x, Attempt: %x" else do
    let (data, s) := kheapAlloc s sz
    let (data, s) ← kmallocRetry data s sz
    if data = 0 then .error "Heap Allocation Failed!" else return (data, s)

/-- `kfree(ptr)`. -/
def kfree (s : KernelMem) (ptr : UInt32) : KernelMem :=
  if ptr ≠ 0 then
    let (mem, kheap) := memheapFree s.mem ptr s.kheap
    { s with mem := mem, kheap := kheap }
  else s

/-! ### Pages as superblocks -/

/-- The superblock made of a page. -/
def pageBlock (p : UInt32) : Memblock := superblockOf p PAGE_SIZE 16

/-- It begins at a multiple of 4 MB. -/
def PageAligned (p : UInt32) : Prop := p.toNat % 2 ^ 22 = 0

section Geometry

variable {p q : UInt32}

theorem pageBlock_addr : (pageBlock p).addr = p := rfl

theorem pageBlock_totalSize : (pageBlock p).totalSize.toNat = 4194284 := rfl

theorem pageBlock_blockSize : (pageBlock p).blockSize.toNat = 16 := rfl

theorem pageBlock_count : (pageBlock p).count = 262142 := by
  rw [Memblock.count, pageBlock_totalSize, pageBlock_blockSize]

theorem pageBlock_reserved : (pageBlock p).reserved = 16384 := by
  rw [Memblock.reserved, pageBlock_count, pageBlock_blockSize, Nat.ceilDiv_eq_add_pred_div]

theorem pageBlock_wf (hp : PageAligned p) : (pageBlock p).WF := by
  have hlt := p.toNat_lt
  have hsize : PAGE_SIZE.toNat = 4194304 := rfl
  rw [PageAligned] at hp
  exact superblockOf_wf (by decide) (by decide) (by omega)

theorem pageBlock_apart (hp : PageAligned p) (hq : PageAligned q) (hne : p ≠ q) :
    (pageBlock p).Apart (pageBlock q) := by
  have hne' : p.toNat ≠ q.toNat := fun he => hne (UInt32.toNat_inj.mp he)
  have hsize : PAGE_SIZE.toNat = 4194304 := rfl
  rw [PageAligned] at hp hq
  exact superblockOf_apart (by decide) (by decide) (by omega)

/-- The bytes of a page. -/
def InPage (p a : UInt32) : Prop := p.toNat ≤ a.toNat ∧ a.toNat < p.toNat + 2 ^ 22

theorem dirIndex_of_inPage (hp : PageAligned p) {a : UInt32} (ha : InPage p a) : dirIndex a = dirIndex p := by
  obtain ⟨h1, h2⟩ := ha
  rw [PageAligned] at hp
  ext
  rw [dirIndex_val, dirIndex_val]
  omega

/-- The bitmap of a page's superblock is in the page. -/
theorem inPage_of_inBitmap {a : UInt32} (ha : (pageBlock p).InBitmap a) : InPage p a := by
  rw [Memblock.InBitmap, Memblock.base, pageBlock_count, pageBlock_addr] at ha
  constructor <;> omega

end Geometry

/-! ### States of the kernel's heap -/

/-- The memory, and what `kmalloc` has returned that was not freed. -/
structure KernelState where
  /-- The heap. -/
  kernel : KernelMem
  /-- What users hold. -/
  live : List Alloc

/-- What can happen. -/
inductive KernelOp where
  /-- `kmalloc`. -/
  | kmalloc (sz : UInt32)
  /-- `kfree`. -/
  | kfree (p : UInt32)
  /-- `alloc_block`, for the stack of a task. -/
  | page
  /-- Somebody writes a byte. -/
  | write (a : UInt32) (v : UInt8)

/-- A request is for at least one byte: `memheap_alloc` returns memory for none without taking it. -/
def KernelOp.Sized : KernelOp → Prop
  | .kmalloc sz => 1 ≤ sz.toNat
  | _ => True

/-- The byte is in no page of the heap. -/
def KernelMem.Outside (s : KernelMem) (a : UInt32) : Prop := ∀ b ∈ s.kheap, ¬ InPage b.addr a

instance (p a : UInt32) : Decidable (InPage p a) := inferInstanceAs (Decidable (_ ∧ _))

instance (s : KernelMem) (a : UInt32) : Decidable (s.Outside a) := inferInstanceAs (Decidable (∀ b ∈ s.kheap, _))

namespace KernelState

/-- After `mem_init`. -/
def init (bootDirectory : PageDirectory) (m : Mem) : KernelState := ⟨memInit bootDirectory m, []⟩

/-- One operation. The kernel frees what is live or `NULL`, and in the pages of the heap writes only what it was
given. A panic ends the run. -/
def step (s : KernelState) : KernelOp → Option KernelState
  | .kmalloc sz =>
    match Kernel.kmalloc s.kernel sz with
    | .ok (p, kernel) => some ⟨kernel, ⟨p, sz⟩ :: s.live⟩
    | .error _ => none
  | .kfree p =>
    if p = 0 ∨ ∃ x ∈ s.live, x.ptr = p then some ⟨Kernel.kfree s.kernel p, s.live.filter (·.ptr ≠ p)⟩ else none
  | .page =>
    match allocBlock s.kernel.alloc s.kernel.mem with
    | .ok (_, alloc, mem) => some ⟨{ s.kernel with alloc := alloc, mem := mem }, s.live⟩
    | .error _ => none
  | .write a v =>
    if (∃ x ∈ s.live, x.Covers a) ∨ s.kernel.Outside a then some ⟨{ s.kernel with mem := s.kernel.mem.set a v }, s.live⟩
    else none

end KernelState

/-- The kernel's heap as a machine. -/
def kernelMachine : Machine KernelState KernelOp := ⟨KernelState.step⟩

/-! ### The invariant -/

/-- The heap has the pages `pages`, and the allocations `held` were made in it and not given back to it. -/
structure Holding (s : KernelMem) (pages : List UInt32) (held : List Alloc) : Prop where
  /-- The search for pages starts at one. -/
  aligned : PageAligned s.alloc.virtualAddr
  /-- They are pages, none of them that of `NULL`, -/
  page : ∀ p ∈ pages, PageAligned p ∧ p ≠ 0
  /-- and mapped. -/
  present : ∀ p ∈ pages, IsPresent (s.alloc.pageDirectory (dirIndex p))
  /-- They are the superblocks of the heap. -/
  blocks : Superblocks (pages.map pageBlock) s.mem s.kheap held

/-- **The invariant of the kernel's heap.** -/
def KernelState.Inv (s : KernelState) : Prop := ∃ pages held, Holding s.kernel pages held ∧ ∀ x ∈ s.live, x ∈ held

namespace Holding

variable {s t : KernelMem} {pages : List UInt32} {held : List Alloc}

/-- Every superblock of the heap is made of a page. -/
theorem page_of_mem (h : Holding s pages held) {b : Memblock} (hb : b ∈ s.kheap) :
    ∃ p ∈ pages, b.Like (pageBlock p) := by
  obtain ⟨c, hc, hbc⟩ := h.blocks.blocks b hb
  obtain ⟨p, hp, rfl⟩ := List.mem_map.mp hc
  exact ⟨p, hp, hbc⟩

/-- Memory outside the pages of the heap does not matter. -/
theorem congr (h : Holding s pages held) {m : Mem} (hm : ∀ p ∈ pages, ∀ a, InPage p a → m a = s.mem a) :
    Holding { s with mem := m } pages held := by
  refine ⟨h.aligned, h.page, h.present, h.blocks.congr fun b hb a ha => ?_⟩
  obtain ⟨p, hp, hbp⟩ := h.page_of_mem hb
  exact hm p hp a (inPage_of_inBitmap (hbp.inBitmap_iff.mp ha))

/-! ### New pages -/

/-- `alloc_block` supplies a page that the heap does not have, and leaves its pages as they are. -/
theorem allocBlock (h : Holding s pages held) {p : UInt32} {alloc : AllocState} {m : Mem}
    (hc : Mm.allocBlock s.alloc s.mem = .ok (p, alloc, m)) :
    Holding { s with alloc := alloc, mem := m } pages held ∧ PageAligned p ∧ p ∉ pages ∧
      IsPresent (alloc.pageDirectory (dirIndex p)) := by
  have hadded := pageAdded_of_allocBlock h.aligned hc
  obtain ⟨u, hu, rfl, rfl, rfl⟩ := allocBlock_eq_ok hc
  have haligned : PageAligned u.virtualAddr := hadded.aligned
  have hnext : PageAligned (u.virtualAddr + PAGE_SIZE) := aligned_add hadded.aligned
  have hnew : u.virtualAddr ∉ pages := fun hmem => hadded.absent (h.present _ hmem)
  have hdir : ∀ q ∈ pages, dirIndex q ≠ dirIndex u.virtualAddr := fun q hq he => hadded.absent (he ▸ h.present q hq)
  have hframe : ∀ q ∈ pages, ∀ a, InPage q a → memset s.mem u.virtualAddr 0 PAGE_SIZE a = s.mem a := by
    intro q hq a ha
    have hlt := u.virtualAddr.toNat_lt
    rw [memset_apply, if_neg]
    rw [PageAligned] at haligned
    rw [toNat_PAGE_SIZE, dist_lt_iff (by omega)]
    intro hin
    exact hdir q hq ((dirIndex_of_inPage (h.page q hq).1 ha).symm.trans (dirIndex_of_inPage haligned hin))
  have hmem := h.congr hframe
  refine ⟨⟨hnext, h.page, fun q hq => ?_, hmem.blocks⟩, haligned, hnew, hadded.present⟩
  rw [hadded.entries (dirIndex q) (hdir q hq)]
  exact h.present q hq

/-- A new page becomes a superblock at the head of the heap. -/
theorem addBlock (h : Holding s pages held) {p : UInt32} (hp : PageAligned p) (hzero : p ≠ 0) (hnew : p ∉ pages)
    (hpresent : IsPresent (s.alloc.pageDirectory (dirIndex p))) :
    Holding { s with mem := (memheapAddBlock s.mem s.kheap p PAGE_SIZE 16).1, kheap := pageBlock p :: s.kheap }
      (p :: pages) held := by
  have hadd := h.blocks.addBlock (pageBlock_wf hp) fun c hc => by
    obtain ⟨q, hq, rfl⟩ := List.mem_map.mp hc
    exact pageBlock_apart hp (h.page q hq).1 fun he => hnew (he ▸ hq)
  have hheap : (memheapAddBlock s.mem s.kheap p PAGE_SIZE 16).2 = pageBlock p :: s.kheap := if_neg hzero
  rw [hheap] at hadd
  exact ⟨h.aligned, List.forall_mem_cons.mpr ⟨⟨hp, hzero⟩, h.page⟩,
    List.forall_mem_cons.mpr ⟨hpresent, h.present⟩, hadd⟩

end Holding

/-- `more_memory` when `alloc_block` supplies a page. -/
theorem moreMemory_eq {s : KernelMem} {p : UInt32} {alloc : AllocState} {m : Mem}
    (hc : allocBlock s.alloc s.mem = .ok (p, alloc, m)) :
    moreMemory s = .ok ⟨(memheapAddBlock m s.kheap p PAGE_SIZE 16).1,
      if p = 0 then [] else pageBlock p :: s.kheap, alloc⟩ := by
  rw [moreMemory, hc]
  rfl

theorem moreMemory_eq_ok {s u : KernelMem} (hu : moreMemory s = .ok u) :
    ∃ p alloc m, allocBlock s.alloc s.mem = .ok (p, alloc, m) ∧
      u.kheap = if p = 0 then [] else pageBlock p :: s.kheap := by
  cases hc : allocBlock s.alloc s.mem with
  | error e =>
    rw [moreMemory, hc] at hu
    cases hu
  | ok r =>
    obtain ⟨p, alloc, m⟩ := r
    rw [moreMemory_eq hc] at hu
    obtain rfl := Except.ok.inj hu
    exact ⟨p, alloc, m, rfl, rfl⟩

/-- **`more_memory`** adds the page that `alloc_block` supplies. -/
theorem Holding.moreMemory {s : KernelMem} {pages : List UInt32} {held : List Alloc}
    (h : Holding s pages held) {p : UInt32}
    {alloc : AllocState} {m : Mem} (hc : Mm.allocBlock s.alloc s.mem = .ok (p, alloc, m)) (hzero : p ≠ 0) :
    ∃ t, Kernel.moreMemory s = .ok t ∧ Holding t (p :: pages) held ∧
    t.mem = (memheapAddBlock m s.kheap p PAGE_SIZE 16).1 ∧
      t.kheap = pageBlock p :: s.kheap := by
  obtain ⟨hsame, hp, hnew, hpresent⟩ := h.allocBlock hc
  have hadd := hsame.addBlock hp hzero hnew hpresent
  refine ⟨⟨(memheapAddBlock m s.kheap p PAGE_SIZE 16).1, pageBlock p :: s.kheap, alloc⟩, ?_, hadd, rfl, rfl⟩
  rw [moreMemory_eq hc, if_neg hzero]

/-! ### Requests -/

/-- The memory `p .. p + sz - 1` can be used: it is mapped, off every header and every bitmap of the
heap, and nobody else holds any of it. -/
structure Usable (live : List Alloc) (s : KernelMem) (p sz : UInt32) : Prop where
  /-- There is a frame behind it. -/
  mapped : ∀ a, Alloc.Covers ⟨p, sz⟩ a → IsPresent (s.alloc.pageDirectory (dirIndex a))
  /-- It holds nothing of the heap's own. -/
  clear : ∀ a, Alloc.Covers ⟨p, sz⟩ a → ∀ b ∈ s.kheap, ¬ (b.addr.toNat ≤ a.toNat ∧ a.toNat < b.base + b.count)
  /-- It does not run past the top of the address space. -/
  fits : p.toNat + sz.toNat ≤ 2 ^ 32
  /-- It is nobody else's. -/
  apart : ∀ x ∈ live, Alloc.Apart ⟨p, sz⟩ x

/-- An allocation made in the heap. -/
theorem Holding.alloc {s : KernelMem} {pages : List UInt32} {held : List Alloc} (h : Holding s pages held)
    {sz p : UInt32}
    {m : Mem} {heap : MemHeap} (hsz : 0 < sz.toNat) (ha : memheapAlloc s.mem sz s.kheap = some (p, m, heap)) :
    Holding { s with mem := m, kheap := heap } pages (⟨p, sz⟩ :: held) ∧ p ≠ 0 ∧
      Usable held { s with mem := m, kheap := heap } p sz := by
  have hblocks := h.blocks.alloc hsz ha
  obtain ⟨-, c, hc, t, hpt⟩ := hblocks.placed _ List.mem_cons_self
  obtain ⟨q, hq, rfl⟩ := List.mem_map.mp hc
  obtain ⟨haligned, hzero⟩ := h.page q hq
  have hb := hpt.bounds (pageBlock_wf haligned)
  have hfits := (pageBlock_wf haligned).fits
  rw [Memblock.base, pageBlock_count, pageBlock_totalSize, pageBlock_addr] at hb
  rw [pageBlock_totalSize, pageBlock_addr] at hfits
  have hbegin : q.toNat + 20 + 262142 ≤ p.toNat := hb.1
  have hend : p.toNat + sz.toNat ≤ q.toNat + 20 + 4194284 := hb.2
  have hin : ∀ a, Alloc.Covers ⟨p, sz⟩ a → InPage q a := by
    intro a ha'
    rw [Alloc.Covers] at ha'
    constructor <;> omega
  refine ⟨⟨h.aligned, h.page, h.present, hblocks⟩, ?_, fun a ha' => ?_, fun a ha' b hbmem => ?_, by omega, ?_⟩
  · rintro rfl
    have hz : (0 : UInt32).toNat = 0 := rfl
    omega
  · rw [dirIndex_of_inPage haligned (hin a ha')]
    exact h.present q hq
  · obtain ⟨d, hd, hbd⟩ := hblocks.blocks b hbmem
    obtain ⟨r, hr, rfl⟩ := List.mem_map.mp hd
    have haddr : b.addr = r := by rw [hbd]; rfl
    rw [Memblock.base, hbd.count_eq, pageBlock_count, haddr]
    rintro ⟨h1, h2⟩
    have hr' : InPage r a := ⟨h1, by omega⟩
    by_cases hqr : q = r
    · subst hqr
      rw [Alloc.Covers] at ha'
      omega
    · have hap := pageBlock_apart haligned (h.page r hr).1 hqr
      rw [Memblock.Apart, pageBlock_totalSize, pageBlock_totalSize, pageBlock_addr, pageBlock_addr] at hap
      obtain ⟨h3, h4⟩ := hin a ha'
      rw [InPage] at hr'
      omega
  · exact (List.pairwise_cons.mp hblocks.disjoint).1

/-- What one page can serve at most: the blocks that its bitmap does not take. -/
def pageRoom : ℕ := (262142 - 16384) * 16

/-- No superblock made of a page serves more. -/
theorem size_le_of_hasRoom {m : Mem} {b : Memblock} {segs : Set Seg} (h : BlockInv m b segs) {p sz : UInt32}
    (hb : b.Like (pageBlock p)) (hsz : 0 < sz.toNat) (hroom : b.HasRoom m sz) : sz.toNat ≤ pageRoom := by
  obtain ⟨i, hrun⟩ := hroom
  have hlo := h.reserved_le_of_runAt (h.wf.blocksNeeded_pos hsz) hrun
  have hhi := hrun.1
  have hcount : b.count = 262142 := hb.count_eq.trans pageBlock_count
  have hreserved : b.reserved = 16384 := hb.reserved_eq.trans pageBlock_reserved
  have hsize : b.blockSize.toNat = 16 := by rw [hb]; rfl
  have hle : sz.toNat ≤ b.blockSize.toNat * (sz.toNat ⌈/⌉ b.blockSize.toNat) :=
    (ceilDiv_le_iff_le_mul h.wf.blockPos).mp le_rfl
  rw [hsize] at hle hhi
  rw [pageRoom]
  omega

/-- A new superblock serves that much. -/
theorem hasRoom_of_le {m : Mem} {heap : MemHeap} {p sz : UInt32} (hp : PageAligned p) (hle : sz.toNat ≤ pageRoom) :
    (pageBlock p).HasRoom (memheapAddBlock m heap p PAGE_SIZE 16).1 sz := by
  have hneeded : sz.toNat ⌈/⌉ (pageBlock p).blockSize.toNat ≤ 245758 := by
    rw [pageBlock_blockSize]
    exact (ceilDiv_le_iff_le_mul (by decide)).mpr hle
  have hcount := @pageBlock_count p
  have hreserved := @pageBlock_reserved p
  refine ⟨16384, by omega, fun k hk => ?_⟩
  have hentry := entry_memheapAddBlock (pageBlock_wf hp) m heap (k := 16384 + k)
    (by change _ < (pageBlock p).count; omega)
  rw [if_neg (by change ¬ _ < (pageBlock p).reserved; omega)] at hentry
  exact hentry

/-! ### `kmalloc` -/

section Kmalloc

variable {s t u : KernelMem} {pages : List UInt32} {held : List Alloc} {p sz : UInt32}

theorem kheapAlloc_eq (hp : p ≠ 0) (h : kheapAlloc s sz = (p, t)) :
    ∃ m heap, memheapAlloc s.mem sz s.kheap = some (p, m, heap) ∧ t = { s with mem := m, kheap := heap } := by
  unfold kheapAlloc at h
  cases ha : memheapAlloc s.mem sz s.kheap with
  | none =>
    simp only [ha, Prod.mk.injEq] at h
    exact absurd h.1.symm hp
  | some r =>
    obtain ⟨q, m, heap⟩ := r
    simp only [ha, Prod.mk.injEq] at h
    obtain ⟨rfl, rfl⟩ := h
    exact ⟨m, heap, rfl, rfl⟩

/-- The last test of `kmalloc`. -/
theorem kmalloc_eq (hsz : ¬ sz > PAGE_SIZE) :
    kmalloc s sz = (kmallocRetry (kheapAlloc s sz).1 (kheapAlloc s sz).2 sz >>= fun r =>
      if r.1 = 0 then .error "Heap Allocation Failed!" else .ok r) := by
  rw [kmalloc, if_neg hsz]
  rfl

/-- Without memory in the heap, the request goes to a new page. -/
theorem kmalloc_of_none (hsz : ¬ sz > PAGE_SIZE) (hnull : (kheapAlloc s sz).1 = 0)
    (hu : moreMemory (kheapAlloc s sz).2 = .ok u) :
    kmalloc s sz = if (kheapAlloc u sz).1 = 0 then .error "Heap Allocation Failed!" else .ok (kheapAlloc u sz) := by
  rw [kmalloc_eq hsz, kmallocRetry, if_pos hnull, hu]
  rfl

/-- With memory in the heap, it does not. -/
theorem kmalloc_of_some (hsz : ¬ sz > PAGE_SIZE) (hp : (kheapAlloc s sz).1 ≠ 0) :
    kmalloc s sz = .ok (kheapAlloc s sz) := by
  rw [kmalloc_eq hsz, kmallocRetry, if_neg hp,
    show (pure _ : Except String (UInt32 × KernelMem)) = .ok _ from rfl, ok_bind, if_neg hp]

/-- A pointer that `kmalloc` returns comes from the heap as it was, or with one more page. -/
theorem kmalloc_eq_ok (h : kmalloc s sz = .ok (p, t)) :
    p ≠ 0 ∧ (kheapAlloc s sz = (p, t) ∨
      (kheapAlloc s sz).1 = 0 ∧ ∃ u, moreMemory (kheapAlloc s sz).2 = .ok u ∧ kheapAlloc u sz = (p, t)) := by
  by_cases hsz : sz > PAGE_SIZE
  · rw [kmalloc, if_pos hsz] at h
    cases h
  by_cases hnull : (kheapAlloc s sz).1 = 0
  · cases hm : moreMemory (kheapAlloc s sz).2 with
    | error e =>
      rw [kmalloc_eq hsz, kmallocRetry, if_pos hnull, hm] at h
      cases h
    | ok u =>
      rw [kmalloc_of_none hsz hnull hm] at h
      split_ifs at h with hp
      have hout : kheapAlloc u sz = (p, t) := Except.ok.inj h
      rw [hout] at hp
      exact ⟨hp, Or.inr ⟨hnull, u, rfl, hout⟩⟩
  · rw [kmalloc_of_some hsz hnull] at h
    have hout : kheapAlloc s sz = (p, t) := Except.ok.inj h
    rw [hout] at hnull
    exact ⟨hnull, Or.inl hout⟩

/-- When the heap has nothing, it stays as it is. -/
theorem kheapAlloc_of_none (h : memheapAlloc s.mem sz s.kheap = none) : kheapAlloc s sz = (0, s) := by
  rw [kheapAlloc, h]

/-- What a heap made of pages returns is not `NULL`. -/
theorem Holding.kheapAlloc_cases (h : Holding s pages held) (hsz : 0 < sz.toNat) :
    memheapAlloc s.mem sz s.kheap = none ∧ kheapAlloc s sz = (0, s) ∨
      ∃ p m heap, memheapAlloc s.mem sz s.kheap = some (p, m, heap) ∧ p ≠ 0 ∧
        kheapAlloc s sz = (p, { s with mem := m, kheap := heap }) := by
  cases ha : memheapAlloc s.mem sz s.kheap with
  | none => exact Or.inl ⟨rfl, kheapAlloc_of_none ha⟩
  | some r =>
    obtain ⟨p, m, heap⟩ := r
    refine Or.inr ⟨p, m, heap, rfl, (h.alloc hsz ha).2.1, ?_⟩
    rw [kheapAlloc, ha]

/-- The memory that `kmalloc` returns is allocated in the heap with its pages, or with one more. -/
theorem Holding.kmalloc_from (h : Holding s pages held) (hsz : 0 < sz.toNat) (hk : Kernel.kmalloc s sz = .ok (p, t)) :
    p ≠ 0 ∧ ∃ v pages' m heap, Holding v pages' held ∧ (∀ b ∈ s.kheap, b ∈ v.kheap) ∧
      memheapAlloc v.mem sz v.kheap = some (p, m, heap) ∧ t = { v with mem := m, kheap := heap } := by
  obtain ⟨hp, hout | ⟨hnull, u, hu, hout⟩⟩ := kmalloc_eq_ok hk
  · obtain ⟨m, heap, ha, ht⟩ := kheapAlloc_eq hp hout
    exact ⟨hp, s, pages, m, heap, h, fun _ => id, ha, ht⟩
  · obtain ⟨m, heap, ha, ht⟩ := kheapAlloc_eq hp hout
    have hsame : (kheapAlloc s sz).2 = s := by
      rcases h.kheapAlloc_cases hsz with ⟨-, hout⟩ | ⟨q, m, heap, -, hq, hout⟩
      · rw [hout]
      · rw [hout] at hnull
        exact absurd hnull hq
    rw [hsame] at hu
    obtain ⟨page, alloc, mem, hc, hkheap⟩ := moreMemory_eq_ok hu
    -- at address 0 the new page would have ended the list
    have hzero : page ≠ 0 := by
      intro hzero
      rw [hkheap, if_pos hzero] at ha
      cases ha
    obtain ⟨v, hv, hheld, -, hlist⟩ := h.moreMemory hc hzero
    obtain rfl : v = u := Except.ok.inj (hv.symm.trans hu)
    exact ⟨hp, v, _, m, heap, hheld, fun b hb => hlist ▸ List.mem_cons_of_mem _ hb, ha, ht⟩

/-- **What `kmalloc` returns can be used.** -/
theorem Holding.kmalloc (h : Holding s pages held) (hsz : 0 < sz.toNat) (hk : Kernel.kmalloc s sz = .ok (p, t)) :
    p ≠ 0 ∧ Usable held t p sz ∧ ∃ pages', Holding t pages' (⟨p, sz⟩ :: held) := by
  obtain ⟨hp, v, pages', m, heap, hheld, -, ha, rfl⟩ := h.kmalloc_from hsz hk
  obtain ⟨hheld', -, husable⟩ := hheld.alloc hsz ha
  exact ⟨hp, husable, pages', hheld'⟩

/-- No request above the room of a page is served. -/
theorem Holding.size_le (h : Holding s pages held) (hsz : 0 < sz.toNat) {m : Mem} {heap : MemHeap}
    (ha : memheapAlloc s.mem sz s.kheap = some (p, m, heap)) : sz.toNat ≤ pageRoom := by
  obtain ⟨pre, b, b', post, hheap, -, hin, -⟩ := memheapAlloc_eq_some ha
  have hb : b ∈ s.kheap := by rw [hheap]; simp
  have hinv := h.blocks.inv b hb
  obtain ⟨q, -, hbq⟩ := h.page_of_mem hb
  refine size_le_of_hasRoom hinv hbq hsz ?_
  by_contra hno
  rw [(hinv.allocIn_eq_none_iff hsz).mpr hno] at hin
  cases hin

theorem Holding.size_le_of_kmalloc (h : Holding s pages held) (hsz : 0 < sz.toNat)
    (hk : Kernel.kmalloc s sz = .ok (p, t)) :
    sz.toNat ≤ pageRoom := by
  obtain ⟨-, v, pages', m, heap, hheld, -, ha, -⟩ := h.kmalloc_from hsz hk
  exact hheld.size_le hsz ha

/-- Every other request is, if there is a page. -/
theorem Holding.exists_kmalloc (h : Holding s pages held) (hsz : 0 < sz.toNat) (hroom : sz.toNat ≤ pageRoom)
    {page : UInt32}
    {alloc : AllocState} {m : Mem} (hc : Mm.allocBlock s.alloc s.mem = .ok (page, alloc, m)) (hzero : page ≠ 0) :
    ∃ p t, Kernel.kmalloc s sz = .ok (p, t) := by
  have hmax : ¬ sz > PAGE_SIZE := by
    rw [pageRoom] at hroom
    rw [gt_iff_lt, UInt32.lt_iff_toNat_lt, toNat_PAGE_SIZE]
    omega
  rcases h.kheapAlloc_cases hsz with ⟨-, hout⟩ | ⟨q, m, heap, -, hq, hout⟩
  · obtain ⟨u, hu, hheld, humem, hukheap⟩ := h.moreMemory hc hzero
    have hpage : PageAligned page := (hheld.page page List.mem_cons_self).1
    have hinv := hheld.blocks.inv (pageBlock page) (by rw [hukheap]; exact List.mem_cons_self)
    rw [kmalloc_of_none hmax (by rw [hout]) (by rw [hout]; exact hu)]
    rcases hheld.kheapAlloc_cases hsz with ⟨hnone, -⟩ | ⟨q, m, heap, -, hq, hout'⟩
    · -- the new page has room
      have hin := memheapAlloc_eq_none_iff.mp hnone (pageBlock page) (by rw [hukheap]; exact List.mem_cons_self)
      have hroom' := @hasRoom_of_le m s.kheap page sz hpage hroom
      rw [← humem] at hroom'
      exact absurd hroom' ((hinv.allocIn_eq_none_iff hsz).mp hin)
    · exact ⟨q, _, by rw [hout', if_neg hq]⟩
  · exact ⟨q, _, by rw [kmalloc_of_some hmax (by rw [hout]; exact hq), hout]⟩

/-- The others end in the second panic, with a page more in the heap. -/
theorem Holding.kmalloc_eq_error (h : Holding s pages held) (hmax : sz ≤ PAGE_SIZE) (hroom : pageRoom < sz.toNat)
    {page : UInt32} {alloc : AllocState} {m : Mem} (hc : Mm.allocBlock s.alloc s.mem = .ok (page, alloc, m))
    (hzero : page ≠ 0) :
    Kernel.kmalloc s sz = .error "Heap Allocation Failed!" := by
  have hsz : 0 < sz.toNat := by omega
  have hnull : ∀ {s pages}, Holding s pages held → kheapAlloc s sz = (0, s) := by
    intro s pages h
    rcases h.kheapAlloc_cases hsz with ⟨-, hout⟩ | ⟨q, m, heap, ha, -, -⟩
    · exact hout
    · exact absurd (h.size_le hsz ha) (by omega)
  obtain ⟨u, hu, hheld, -, -⟩ := h.moreMemory hc hzero
  rw [kmalloc_of_none (UInt32.not_lt.mpr hmax) (by rw [hnull h]) (by rw [hnull h]; exact hu), hnull hheld, if_pos rfl]

end Kmalloc

/-! ### Runs -/

/-- `kfree` of what is held gives it back, or has no effect when it is in the last page. -/
theorem Holding.kfree {s : KernelMem} {pages : List UInt32} {held : List Alloc} (h : Holding s pages held) {x : Alloc}
    (hx : x ∈ held) :
    ∃ held', Holding (Kernel.kfree s x.ptr) pages held' ∧ ∀ y ∈ held, y.ptr ≠ x.ptr → y ∈ held' := by
  rw [Kernel.kfree]
  split_ifs with hzero
  swap
  · exact ⟨held, h, fun y hy _ => hy⟩
  obtain ⟨held', hblocks, hkeep⟩ := h.blocks.free_any hx
  exact ⟨held', ⟨h.aligned, h.page, h.present, hblocks⟩, hkeep⟩

/-- Nothing changes in the heap when somebody writes to memory that it does not have, or that is allocated. -/
theorem Holding.write {s : KernelMem} {pages : List UInt32} {held : List Alloc} (h : Holding s pages held) {a : UInt32}
    (ha : (∃ x ∈ held, x.Covers a) ∨ s.Outside a) (v : UInt8) : Holding { s with mem := s.mem.set a v } pages held := by
  refine ⟨h.aligned, h.page, h.present, ?_⟩
  rcases ha with ⟨x, hx, ha⟩ | hout
  · exact h.blocks.write hx ha v
  · refine h.blocks.congr fun b hb a' ha' => Mem.set_of_ne _ _ ?_
    rintro rfl
    obtain ⟨p, -, hbp⟩ := h.page_of_mem hb
    have haddr : b.addr = p := by rw [hbp]; rfl
    refine hout b hb ?_
    rw [haddr]
    exact inPage_of_inBitmap (hbp.inBitmap_iff.mp ha')

/-- One operation keeps the invariant. -/
theorem kernelInv_of_step {s t : KernelState} {op : KernelOp} (h : s.Inv) (hop : op.Sized)
    (hs : kernelMachine.step s op = some t) : t.Inv := by
  obtain ⟨pages, held, hheld, hlive⟩ := h
  cases op with
  | kmalloc sz =>
    simp only [kernelMachine, KernelState.step] at hs
    split at hs
    · next p kernel hk =>
      obtain rfl := Option.some.inj hs
      obtain ⟨-, -, pages', hheld'⟩ := hheld.kmalloc hop hk
      refine ⟨pages', _, hheld', List.forall_mem_cons.mpr ⟨List.mem_cons_self, ?_⟩⟩
      intro x hx
      exact List.mem_cons_of_mem _ (hlive x hx)
    · cases hs
  | kfree p =>
    simp only [kernelMachine, KernelState.step] at hs
    split_ifs at hs with hp
    obtain rfl := Option.some.inj hs
    rcases hp with rfl | ⟨x, hx, rfl⟩
    · exact ⟨pages, held, hheld, fun y hy => hlive y (List.mem_filter.mp hy).1⟩
    · obtain ⟨held', hheld', hkeep⟩ := hheld.kfree (hlive x hx)
      refine ⟨pages, held', hheld', fun y hy => ?_⟩
      obtain ⟨hy, hne⟩ := List.mem_filter.mp hy
      exact hkeep y (hlive y hy) (of_decide_eq_true hne)
  | page =>
    simp only [kernelMachine, KernelState.step] at hs
    split at hs
    · next p alloc mem hc =>
      obtain rfl := Option.some.inj hs
      exact ⟨pages, held, (hheld.allocBlock hc).1, hlive⟩
    · cases hs
  | write a v =>
    simp only [kernelMachine, KernelState.step] at hs
    split_ifs at hs with ha
    obtain rfl := Option.some.inj hs
    exact ⟨pages, held, hheld.write (ha.imp_left fun ⟨x, hx, hxa⟩ => ⟨x, hlive x hx, hxa⟩) v, hlive⟩

theorem kernelInv_init (bootDirectory : PageDirectory) (m : Mem) : (KernelState.init bootDirectory m).Inv :=
  ⟨[], [], ⟨(by decide : PAGE_SIZE.toNat % 2 ^ 22 = 0), by simp, by simp, Superblocks.empty m⟩,
    by simp [KernelState.init]⟩

/-- The invariant holds in every run without empty requests. -/
theorem kernelInv_of_run {bootDirectory : PageDirectory} {m : Mem} {ops : List KernelOp} {s : KernelState}
    (hops : ∀ op ∈ ops, op.Sized) (h : kernelMachine.run (KernelState.init bootDirectory m) ops = some s) : s.Inv := by
  refine kernelMachine.invariant_of_labels ?_ (kernelInv_init bootDirectory m) hops h
  intro s op t
  exact kernelInv_of_step

/-! ### Which requests are served -/

theorem Usable.mono {live held : List Alloc} {s : KernelMem} {p sz : UInt32} (h : Usable held s p sz)
    (hlive : ∀ x ∈ live, x ∈ held) : Usable live s p sz :=
  ⟨h.mapped, h.clear, h.fits, fun x hx => h.apart x (hlive x hx)⟩

/-- **Which requests `kmalloc` serves.** In every state that requests of at least one byte lead to, and in which
`alloc_block` can supply a page, that not at address `0`, `kmalloc` returns memory that can be used exactly
if the request is of at most 3932128 bytes, though it accepts up to `PAGE_SIZE`. -/
theorem kmalloc_iff {bootDirectory : PageDirectory} {m : Mem} {ops : List KernelOp} {s : KernelState}
    (hops : ∀ op ∈ ops, op.Sized)
    (h : kernelMachine.run (KernelState.init bootDirectory m) ops = some s) {sz : UInt32} (hsz : 1 ≤ sz.toNat)
    {page : UInt32} {alloc : AllocState} {m' : Mem}
    (hc : allocBlock s.kernel.alloc s.kernel.mem = .ok (page, alloc, m')) (hzero : page ≠ 0) :
    (∃ p t, kmalloc s.kernel sz = .ok (p, t) ∧ p ≠ 0 ∧ Usable s.live t p sz) ↔ sz.toNat ≤ 3932128 := by
  obtain ⟨pages, held, hheld, hlive⟩ := kernelInv_of_run hops h
  constructor
  · rintro ⟨p, t, hk, -, -⟩
    exact hheld.size_le_of_kmalloc hsz hk
  · intro hroom
    obtain ⟨p, t, hk⟩ := hheld.exists_kmalloc hsz hroom hc hzero
    obtain ⟨hp, husable, -⟩ := hheld.kmalloc hsz hk
    exact ⟨p, t, hk, hp, husable.mono hlive⟩

/-- The first page after boot. -/
theorem exists_allocBlock_boot :
    ∃ alloc m, allocBlock (allocInit bootDirectory) (fun _ => 0) = .ok (0x400000, alloc, m) := by
  have hva : (allocLoop (allocInit bootDirectory) 1024).toOption.map AllocState.virtualAddr = some 0x400000 := by
    decide +kernel
  obtain ⟨v, hloop, hva⟩ := exists_ok_of_map hva
  refine ⟨{ v with virtualAddr := v.virtualAddr + PAGE_SIZE }, memset (fun _ => 0) v.virtualAddr 0 PAGE_SIZE, ?_⟩
  rw [allocBlock, hloop, ← hva]
  rfl

theorem kmalloc_iff_sample :
    ∃ p t, kmalloc (KernelState.init bootDirectory fun _ => 0).kernel 100 = .ok (p, t) ∧ p ≠ 0 ∧ Usable [] t p 100 := by
  obtain ⟨alloc, m, hc⟩ := exists_allocBlock_boot
  have hrun : kernelMachine.run (KernelState.init bootDirectory fun _ => 0) [] =
      some (KernelState.init bootDirectory fun _ => 0) := rfl
  exact (kmalloc_iff (by simp) hrun (by decide) hc (by decide)).mpr (by decide)

/-- A request of a whole page, the first after boot, passes the check of `kmalloc` and halts the machine. -/
theorem kmalloc_lost :
    (∃ alloc m, allocBlock (KernelState.init bootDirectory fun _ => 0).kernel.alloc (fun _ => 0) =
      .ok (0x400000, alloc, m)) ∧
      kmalloc (KernelState.init bootDirectory fun _ => 0).kernel PAGE_SIZE = .error "Heap Allocation Failed!" := by
  obtain ⟨alloc, m, hc⟩ := exists_allocBlock_boot
  obtain ⟨pages, held, hheld, -⟩ := kernelInv_init bootDirectory (fun _ => 0)
  refine ⟨⟨alloc, m, hc⟩, hheld.kmalloc_eq_error (UInt32.le_refl _) ?_ hc (by decide)⟩
  rw [pageRoom, toNat_PAGE_SIZE]
  decide

end MoltarOS.Kernel
