import MoltarOS.Kernel.Mem
import MoltarOS.Mm.AllocSearch

/-!
# Giving memory back

`memheap_free` looks for the superblock that holds the pointer, by a comparison with the address at which it ends. For
the last page of the address space this sum wraps to `0`, and no pointer is below it.

## What is proved

* `kfree_returned_iff` — `kfree` gives the blocks of a live pointer back, so that the same request is served again
  from the heap as it is, exactly if the pointer is not in the last page.
* `kfree_lost` — after enough pages, `kmalloc` returns a pointer there.
-/

namespace MoltarOS.Kernel

open MoltarOS.Lib MoltarOS.Lib.Word MoltarOS.Libc MoltarOS.Mm

/-! ### The superblocks stay in the list -/

theorem freeIn_like (m : Mem) (p : UInt32) (b : Memblock) : (freeIn m p b).2.Like b := by
  rw [freeIn]
  split_ifs <;> rfl

theorem memheapFree_like {m : Mem} {p : UInt32} {heap : MemHeap} {b : Memblock} (hb : b ∈ heap) :
    ∃ c ∈ (memheapFree m p heap).2, c.Like b := by
  induction heap generalizing m with
  | nil => cases hb
  | cons d rest ih =>
    rw [memheapFree]
    rcases List.mem_cons.mp hb with rfl | hb
    · exact ⟨(freeIn m p b).2, List.mem_cons_self, freeIn_like m p b⟩
    · obtain ⟨c, hc, hcb⟩ := @ih (freeIn m p d).1 hb
      exact ⟨c, List.mem_cons_of_mem _ hc, hcb⟩

theorem allocIn_like {m m' : Mem} {size p : UInt32} {b b' : Memblock} (h : allocIn m size b = some (p, m', b')) :
    b'.Like b := by
  simp only [allocIn] at h
  split_ifs at h
  split at h
  · simp only [Option.some.injEq, Prod.mk.injEq] at h
    rw [← h.2.2]
    rfl
  · cases h

theorem memheapAlloc_like {m m' : Mem} {size p : UInt32} {heap heap' : MemHeap}
    (h : memheapAlloc m size heap = some (p, m', heap')) {b : Memblock} (hb : b ∈ heap) : ∃ c ∈ heap', c.Like b := by
  obtain ⟨pre, d, d', post, rfl, rfl, hin, -⟩ := memheapAlloc_eq_some h
  exact like_replace (allocIn_like hin) hb rfl

/-- `kmalloc` takes no superblock from the list, and what it returns is in one of the list. -/
theorem Holding.kmalloc_listed {s t : KernelMem} {pages : List UInt32} {held : List Alloc} (h : Holding s pages held)
    {p sz : UInt32}
    (hsz : 0 < sz.toNat) (hk : Kernel.kmalloc s sz = .ok (p, t)) :
    (∀ b ∈ s.kheap, ∃ c ∈ t.kheap, c.Like b) ∧ ∃ b ∈ t.kheap, b.Holds p := by
  obtain ⟨-, v, pages', m, heap, hheld, hsub, ha, rfl⟩ := h.kmalloc_from hsz hk
  refine ⟨fun b hb => memheapAlloc_like ha (hsub b hb), ?_⟩
  obtain ⟨pre, b, b', post, hheap, rfl, hin, -⟩ := memheapAlloc_eq_some ha
  have hinv := hheld.blocks.inv b (by rw [hheap]; simp)
  obtain ⟨u, hc⟩ := hinv.claimed hsz hin
  exact ⟨b', by simp, (allocIn_like hin).holds_iff.mpr (hc.placed.holds hinv.wf hsz)⟩

/-! ### What users hold is in the list -/

/-- The superblock of every live allocation is in the list. -/
def KernelState.Listed (s : KernelState) : Prop := ∀ x ∈ s.live, ∃ b ∈ s.kernel.kheap, b.Holds x.ptr

theorem listed_of_like {s t : KernelState} (h : s.Listed) (hlike : ∀ b ∈ s.kernel.kheap, ∃ c ∈ t.kernel.kheap, c.Like b)
    {x : Alloc}
    (hx : x ∈ s.live) : ∃ b ∈ t.kernel.kheap, b.Holds x.ptr := by
  obtain ⟨b, hb, hbx⟩ := h x hx
  obtain ⟨c, hc, hcb⟩ := hlike b hb
  exact ⟨c, hc, hcb.holds_iff.mpr hbx⟩

theorem listed_step {s t : KernelState} {op : KernelOp} (hinv : s.Inv) (h : s.Listed) (hop : op.Sized)
    (hs : kernelMachine.step s op = some t) : t.Listed := by
  have hrefl : ∀ b ∈ s.kernel.kheap, ∃ c ∈ s.kernel.kheap, c.Like b := fun b hb => ⟨b, hb, rfl⟩
  cases op with
  | kmalloc sz =>
    simp only [kernelMachine, KernelState.step] at hs
    split at hs
    · next p kernel hk =>
      obtain rfl := Option.some.inj hs
      obtain ⟨pages, held, hheld, -⟩ := hinv
      obtain ⟨hlike, hnew⟩ := hheld.kmalloc_listed hop hk
      exact List.forall_mem_cons.mpr ⟨hnew, fun x hx => listed_of_like h hlike hx⟩
    · cases hs
  | kfree p =>
    simp only [kernelMachine, KernelState.step] at hs
    split_ifs at hs with hp
    obtain rfl := Option.some.inj hs
    refine fun x hx => listed_of_like h (fun b hb => ?_) (List.mem_filter.mp hx).1
    rw [kfree]
    split_ifs
    · exact memheapFree_like hb
    · exact hrefl b hb
  | page =>
    simp only [kernelMachine, KernelState.step] at hs
    split at hs
    · obtain rfl := Option.some.inj hs
      exact fun x hx => listed_of_like h hrefl hx
    · cases hs
  | write a v =>
    simp only [kernelMachine, KernelState.step] at hs
    split_ifs at hs with ha
    obtain rfl := Option.some.inj hs
    exact fun x hx => listed_of_like h hrefl hx

theorem listed_of_run {bootDirectory : PageDirectory} {m : Mem} {ops : List KernelOp} {s : KernelState}
    (hops : ∀ op ∈ ops, op.Sized) (h : kernelMachine.run (KernelState.init bootDirectory m) ops = some s) :
    s.Inv ∧ s.Listed := by
  have hinit : (KernelState.init bootDirectory m).Listed := by simp [KernelState.Listed, KernelState.init]
  refine kernelMachine.invariant_of_labels (I := fun s => s.Inv ∧ s.Listed) ?_
    ⟨kernelInv_init bootDirectory m, hinit⟩ hops h
  rintro s op t ⟨hinv, hlisted⟩ hop hs
  exact ⟨kernelInv_of_step hinv hop hs, listed_step hinv hlisted hop hs⟩

/-- A run of one request. -/
theorem run_kmalloc {s : KernelState} {sz p : UInt32} {t : KernelMem} (hk : kmalloc s.kernel sz = .ok (p, t)) :
    kernelMachine.run s [.kmalloc sz] = some ⟨t, ⟨p, sz⟩ :: s.live⟩ := by
  refine kernelMachine.run_cons.mpr ⟨_, ?_, rfl⟩
  simp only [kernelMachine, KernelState.step, hk]

/-! ### Giving back -/

/-- Where the last page of the address space begins. -/
def lastPage : UInt32 := 0xFFC00000

/-- `kfree` gives the memory back: its blocks are free, and the next request of the same size is served from them, or
from others of the heap as it is, without a call of `alloc_block`. -/
structure Returned (s : KernelMem) (x : Alloc) : Prop where
  /-- The blocks. -/
  free : ∃ b ∈ (kfree s x.ptr).kheap, ∃ t, Placed b x t ∧ ∀ k ∈ t, entry (kfree s x.ptr).mem b k = FREE
  /-- The next request. -/
  again : ∃ p t, p ≠ 0 ∧ kheapAlloc (kfree s x.ptr) x.size = (p, t) ∧ kmalloc (kfree s x.ptr) x.size = .ok (p, t)

/-- A pointer in the last page is one of its superblock, which alone runs to the end of the address space. -/
theorem pageBlock_below_iff {p q : UInt32} (hp : PageAligned p) (hq : (pageBlock p).Holds q) :
    (pageBlock p).Below ↔ q.toNat < 0xFFC00000 := by
  have hlt := p.toNat_lt
  rw [Memblock.Holds, pageBlock_addr, pageBlock_totalSize] at hq
  rw [Memblock.Below, pageBlock_addr, pageBlock_totalSize]
  rw [PageAligned] at hp
  omega

section Giving

variable {s : KernelMem} {pages : List UInt32} {held : List Alloc} {x : Alloc}

/-- Where an allocation of the list is placed. -/
theorem Holding.placed_of_holds (h : Holding s pages held) (hx : x ∈ held) {b : Memblock} (hb : b ∈ s.kheap)
    (hbx : b.Holds x.ptr) :
    0 < x.size.toNat ∧ ∃ t, Placed b x t := by
  obtain ⟨hpos, c, hc, t, hxt⟩ := h.blocks.placed x hx
  exact ⟨hpos, t, (h.blocks.site_of_holds hb hc hpos hxt hbx).placed_iff.mpr hxt⟩

theorem Holding.below_iff (h : Holding s pages held) {b : Memblock} (hb : b ∈ s.kheap) (hbx : b.Holds x.ptr) :
    b.Below ↔ x.ptr.toNat < 0xFFC00000 := by
  obtain ⟨p, hp, hbp⟩ := h.page_of_mem hb
  rw [hbp.below_iff]
  exact pageBlock_below_iff (h.page p hp).1 (hbp.holds_iff.mp hbx)

/-- What is held is not free. -/
theorem Holding.entry_ne_free (h : Holding s pages held) (hx : x ∈ held) {b : Memblock} (hb : b ∈ s.kheap) {t : Seg}
    (hxt : Placed b x t) : entry s.mem b t.start ≠ FREE ∧ t.start ∈ t := by
  have htiles := (h.blocks.inv b hb).tiles
  have ht : t ∈ segsOf b held := ⟨x, hx, hxt⟩
  exact ⟨htiles.ne_free t ht, htiles.start_mem ht⟩

/-- The run given back is free, in the heap that it is given back to. -/
theorem Holding.released (h : Holding s pages held) (hx : x ∈ held) {b : Memblock} (hb : b ∈ s.kheap)
    (hbx : b.Holds x.ptr) (hlow : x.ptr.toNat < 0xFFC00000) :
    Holding (Kernel.kfree s x.ptr) pages (held.filter (·.ptr ≠ x.ptr)) ∧
      ∃ c ∈ (Kernel.kfree s x.ptr).kheap, ∃ t, Placed c x t ∧ ∀ k ∈ t, entry (Kernel.kfree s x.ptr).mem c k = FREE := by
  have hall : ∀ b ∈ s.kheap, b.Holds x.ptr → b.Below := fun b hb hbx => (h.below_iff hb hbx).mpr hlow
  have hzero : x.ptr ≠ 0 := by
    rintro he
    have hlo := hbx.1
    rw [he] at hlo
    exact Nat.not_lt_zero _ hlo
  have hfree : Kernel.kfree s x.ptr =
      { s with mem := (memheapFree s.mem x.ptr s.kheap).1, kheap := (memheapFree s.mem x.ptr s.kheap).2 } :=
    if_pos hzero
  rw [hfree]
  refine ⟨⟨h.aligned, h.page, h.present, h.blocks.free hx hall⟩, ?_⟩
  rcases h.blocks.free_cases hx hall with ⟨pre, c, post, t, hheap, hct, -, heq, hrel⟩ | ⟨hout, -⟩
  · rw [heq]
    refine ⟨(freeIn s.mem x.ptr c).2, by simp, t, (freeIn_like s.mem x.ptr c).placed_iff.mpr hct, fun k hk => ?_⟩
    have hk' : k < c.count := lt_of_lt_of_le (Seg.mem_iff.mp hk).2 hct.hi
    have hentry : ∀ m, entry m (freeIn s.mem x.ptr c).2 k = entry m c k := by
      rw [hrel.header]
      exact fun m => rfl
    rw [hentry, hrel.label k hk', relabel_of_mem _ _ hk]
  · exact absurd hbx (hout b hb).2

/-- **What is given back can be had again**, and not otherwise. -/
theorem Holding.returned_iff (h : Holding s pages held) (hx : x ∈ held) {b : Memblock} (hb : b ∈ s.kheap)
    (hbx : b.Holds x.ptr) :
    Returned s x ↔ x.ptr.toNat < 0xFFC00000 := by
  obtain ⟨hpos, t, hbt⟩ := h.placed_of_holds hx hb hbx
  constructor
  · rintro ⟨⟨c, hc, u, hcu, hfree⟩, -⟩
    by_contra hlast
    -- nothing was given back
    have hsame : Kernel.kfree s x.ptr = s := by
      rw [Kernel.kfree]
      split_ifs
      · have heq := h.blocks.memheapFree_of_not_below hb hbx fun hlow => hlast ((h.below_iff hb hbx).mp hlow)
        rw [heq]
      · rfl
    rw [hsame] at hc hfree
    obtain ⟨hne, hmem⟩ := h.entry_ne_free hx hc hcu
    exact hne (hfree u.start hmem)
  · intro hlow
    obtain ⟨hheld, c, hc, u, hcu, hfree⟩ := h.released hx hb hbx hlow
    refine ⟨⟨c, hc, u, hcu, hfree⟩, ?_⟩
    have hinv := hheld.blocks.inv c hc
    have hbounds := hbt.bounds (h.blocks.inv b hb).wf
    have hroom : c.HasRoom (Kernel.kfree s x.ptr).mem x.size := by
      refine ⟨u.start, ?_⟩
      rw [Memblock.FitsAt, ← hcu.len]
      exact ⟨hcu.hi, fun k hk => hfree (u.start + k) (Seg.mem_iff.mpr ⟨Nat.le_add_right _ _, Nat.add_lt_add_left hk _⟩)⟩
    rcases hheld.kheapAlloc_cases hpos with ⟨hnone, -⟩ | ⟨p, m, heap, -, hp, hout⟩
    · exact absurd hroom ((hinv.allocIn_eq_none_iff hpos).mp (memheapAlloc_eq_none_iff.mp hnone c hc))
    · have hmax : ¬ x.size > PAGE_SIZE := by
        obtain ⟨q, -, hbq⟩ := h.page_of_mem hb
        have htotal : b.totalSize.toNat = 4194284 := by
          rw [hbq]
          rfl
        rw [gt_iff_lt, UInt32.lt_iff_toNat_lt, toNat_PAGE_SIZE]
        omega
      exact ⟨p, _, hp, hout, (kmalloc_of_some hmax (by rw [hout]; exact hp)).trans (congrArg Except.ok hout)⟩

end Giving

/-- **`kfree` gives a live pointer back exactly if it is not in the last page**, after requests of at least one
byte. -/
theorem kfree_returned_iff {bootDirectory : PageDirectory} {m : Mem} {ops : List KernelOp} {s : KernelState}
    (hops : ∀ op ∈ ops, op.Sized) (h : kernelMachine.run (KernelState.init bootDirectory m) ops = some s)
    {x : Alloc} (hx : x ∈ s.live) : Returned s.kernel x ↔ x.ptr.toNat < 0xFFC00000 := by
  obtain ⟨⟨pages, held, hheld, hlive⟩, hlisted⟩ := listed_of_run hops h
  obtain ⟨b, hb, hbx⟩ := hlisted x hx
  exact hheld.returned_iff (hlive x hx) hb hbx

theorem kfree_returned_sample : ∃ ops s x, kernelMachine.run (KernelState.init bootDirectory fun _ => 0) ops = some s ∧
    x ∈ s.live ∧
    (Returned s.kernel x ↔ x.ptr.toNat < 0xFFC00000) := by
  obtain ⟨pages, held, hheld, -⟩ := kernelInv_init bootDirectory fun _ => 0
  obtain ⟨alloc, m, hc⟩ := exists_allocBlock_boot
  obtain ⟨p, t, hk⟩ := hheld.exists_kmalloc (show 0 < (100 : UInt32).toNat by decide) (by decide) hc (by decide)
  have hrun := run_kmalloc (s := KernelState.init bootDirectory fun _ => 0) hk
  have hops : ∀ op ∈ [KernelOp.kmalloc 100], op.Sized := by
    intro op hop
    obtain rfl := List.mem_singleton.mp hop
    exact (by decide : 1 ≤ (100 : UInt32).toNat)
  exact ⟨_, _, _, hrun, List.mem_cons_self, kfree_returned_iff hops hrun List.mem_cons_self⟩

/-! ### The last page -/

/-- Calls of `alloc_block` alone, in the kernel. -/
theorem run_pages {a b : Handed} {ms : List Mem} (hr : pageMachine.run a ms = some b) {s : KernelState}
    (hs : s.kernel.alloc = a.alloc) :
    ∃ t, kernelMachine.run s (ms.map fun _ => .page) = some t ∧ t.kernel.alloc = b.alloc ∧
    t.kernel.kheap = s.kernel.kheap ∧
      t.live = s.live := by
  induction ms generalizing a s with
  | nil =>
    obtain rfl := Option.some.inj hr
    exact ⟨s, rfl, hs, rfl, rfl⟩
  | cons m ms ih =>
    obtain ⟨c, hstep, hrest⟩ := pageMachine.run_cons.mp hr
    obtain ⟨p, m', hc, -⟩ := pageMachine_step hstep
    obtain ⟨n, hn⟩ := allocBlock_mem hc s.kernel.mem
    rw [← hs] at hn
    have hpage : kernelMachine.step s .page = some ⟨⟨n, s.kernel.kheap, c.alloc⟩, s.live⟩ := by
      simp only [kernelMachine, KernelState.step, hn]
    obtain ⟨t, hrun, halloc, hkheap, hlive⟩ := @ih c hrest ⟨⟨n, s.kernel.kheap, c.alloc⟩, s.live⟩ rfl
    exact ⟨t, kernelMachine.run_cons.mpr ⟨_, hpage, hrun⟩, halloc, hkheap, hlive⟩

/-- Without superblocks, `kmalloc` serves a request from the page that `alloc_block` supplies. -/
theorem Holding.kmalloc_new {s t : KernelMem} {pages : List UInt32} {held : List Alloc} (h : Holding s pages held)
    (hempty : s.kheap = []) {page : UInt32} {alloc : AllocState} {m : Mem}
    (hc : Mm.allocBlock s.alloc s.mem = .ok (page, alloc, m))
    (hzero : page ≠ 0) {p sz : UInt32} (hsz : 0 < sz.toNat) (hk : Kernel.kmalloc s sz = .ok (p, t)) :
    (pageBlock page).Holds p := by
  have hnone : kheapAlloc s sz = (0, s) := kheapAlloc_of_none (by rw [hempty]; rfl)
  obtain ⟨u, hu, hheld, -, hukheap⟩ := h.moreMemory hc hzero
  obtain ⟨hp, hout | ⟨-, v, hv, hout⟩⟩ := kmalloc_eq_ok hk
  · rw [hnone] at hout
    exact absurd (congrArg Prod.fst hout).symm hp
  · rw [hnone] at hv
    obtain rfl : u = v := Except.ok.inj (hu.symm.trans hv)
    obtain ⟨m, heap, ha, -⟩ := kheapAlloc_eq hp hout
    obtain ⟨pre, b, b', post, hheap, -, hin, -⟩ := memheapAlloc_eq_some ha
    rw [hukheap, hempty] at hheap
    have hb : b = pageBlock page := by
      have hmem : b ∈ [pageBlock page] := by rw [hheap]; simp
      exact List.mem_singleton.mp hmem
    have hinv := hheld.blocks.inv b (by rw [hukheap, hb]; exact List.mem_cons_self)
    obtain ⟨r, hclaim⟩ := hinv.claimed hsz hin
    exact hb ▸ hclaim.placed.holds hinv.wf hsz

/-- The page at the last entry is the last page. -/
theorem eq_lastPage {p : UInt32} (hp : PageAligned p) (hlast : dirIndex p = 1023) : p = lastPage := by
  have hlt := p.toNat_lt
  have hval : (dirIndex p).val = 1023 := congrArg Fin.val hlast
  rw [dirIndex_val] at hval
  rw [PageAligned] at hp
  apply UInt32.toNat_inj.mp
  change p.toNat = 0xFFC00000
  omega

/-- Once `alloc_block` has handed out the pages before it, for stacks, `kmalloc` gets the last one: what it
returns there `kfree` does not give back. -/
theorem kfree_lost : ∃ ops s x, kernelMachine.run (KernelState.init bootDirectory fun _ => 0) ops =
    some s ∧ x ∈ s.live ∧
    ¬ Returned s.kernel x := by
  obtain ⟨ms, b, hr, -, p, alloc, hp, hc⟩ :=
    @exists_run_to 1023 1022 ⟨allocInit bootDirectory, []⟩ (rising_init bootDirectory)
    (by decide) (by rw [card_presentEntries_boot]) (by rw [List.length_nil])
  obtain ⟨s, hrun, halloc, hkheap, -⟩ := run_pages hr (s := KernelState.init bootDirectory fun _ => 0) rfl
  have hpages : ∀ op ∈ ms.map fun _ => KernelOp.page, op.Sized := by
    intro op hop
    obtain ⟨-, -, rfl⟩ := List.mem_map.mp hop
    exact trivial
  obtain ⟨⟨pages, held, hheld, -⟩, -⟩ := listed_of_run hpages hrun
  obtain ⟨m, hc⟩ := hc s.kernel.mem
  rw [← halloc] at hc
  obtain rfl : p = lastPage := eq_lastPage (hheld.allocBlock hc).2.1 hp
  obtain ⟨q, t, hk⟩ := hheld.exists_kmalloc (show 0 < (100 : UInt32).toNat by decide) (by decide) hc (by decide)
  have hq := hheld.kmalloc_new hkheap hc (by decide) (by decide) hk
  have hrun' := kernelMachine.run_append.mpr ⟨s, hrun, run_kmalloc hk⟩
  have hops : ∀ op ∈ (ms.map fun _ => KernelOp.page) ++ [.kmalloc 100], op.Sized := by
    intro op hop
    rcases List.mem_append.mp hop with hop | hop
    · exact hpages op hop
    · obtain rfl := List.mem_singleton.mp hop
      exact (by decide : 1 ≤ (100 : UInt32).toNat)
  obtain ⟨⟨pages, held, hheld', hlive⟩, hlisted⟩ := listed_of_run hops hrun'
  obtain ⟨b, hb, hbq⟩ := hlisted _ List.mem_cons_self
  refine ⟨_, _, _, hrun', List.mem_cons_self, fun hret => ?_⟩
  have hlow := (hheld'.returned_iff (hlive _ List.mem_cons_self) hb hbq).mp hret
  exact absurd hlow (Nat.not_lt.mpr (Nat.le_of_lt hq.1))

end MoltarOS.Kernel
