import MoltarOS.Mm.HeapBlock

/-!
# A list of superblocks

What the heap's operations do to the list: `memheap_alloc` takes the first superblock that serves the
request, `memheap_free` the one that holds the pointer, and the others stay as they are.

`Superblocks sites m heap held` is the invariant all that is built on: the superblocks of the list are
among `sites`, which have no byte in common, and the bitmap of each encodes exactly the
allocations of `held` that are placed in it. An allocation may be placed in a superblock that is no longer in the list.
-/

namespace MoltarOS.Mm

open MoltarOS.Lib MoltarOS.Lib.Word MoltarOS.Libc

/-! ### Where allocations are -/

/-- An allocation: the pointer `memheap_alloc` returned, and the size asked for. -/
structure Alloc where
  /-- The pointer. -/
  ptr : UInt32
  /-- The size. -/
  size : UInt32
  deriving DecidableEq

/-- The byte at `a` belongs to the allocation. -/
def Alloc.Covers (x : Alloc) (a : UInt32) : Prop := x.ptr.toNat ≤ a.toNat ∧ a.toNat < x.ptr.toNat + x.size.toNat

/-- The allocations have no byte in common. -/
def Alloc.Apart (x y : Alloc) : Prop :=
  x.ptr.toNat + x.size.toNat ≤ y.ptr.toNat ∨ y.ptr.toNat + y.size.toNat ≤ x.ptr.toNat

instance (x : Alloc) (a : UInt32) : Decidable (x.Covers a) := inferInstanceAs (Decidable (_ ∧ _))

/-- The allocation `x` is the run `t` of blocks of `b`. -/
structure Placed (b : Memblock) (x : Alloc) (t : Seg) : Prop where
  /-- As many blocks as its size needs. -/
  len : t.len = x.size.toNat ⌈/⌉ b.blockSize.toNat
  /-- The pointer is the address of the first. -/
  ptr : x.ptr.toNat = b.base + t.start * b.blockSize.toNat
  /-- They lie after the blocks of the bitmap. -/
  lo : b.reserved ≤ t.start
  /-- They are blocks of the superblock. -/
  hi : t.start + t.len ≤ b.count

namespace Placed

variable {b : Memblock} {x y : Alloc} {s t : Seg}

/-- The bytes asked for lie within the blocks. -/
theorem end_le (h : Placed b x t) (hwf : b.WF) :
    x.ptr.toNat + x.size.toNat ≤ b.base + (t.start + t.len) * b.blockSize.toNat := by
  have hsize : x.size.toNat ≤ b.blockSize.toNat * t.len := (ceilDiv_le_iff_le_mul hwf.blockPos).mp h.len.ge
  rw [h.ptr, Nat.add_mul, Nat.mul_comm t.len]
  omega

/-- The bytes lie in the superblock, past the bitmap. -/
theorem bounds (h : Placed b x t) (hwf : b.WF) :
    b.base + b.count ≤ x.ptr.toNat ∧ x.ptr.toNat + x.size.toNat ≤ b.base + b.totalSize.toNat := by
  have h1 := hwf.count_le_mul
  have h2 : b.reserved * b.blockSize.toNat ≤ t.start * b.blockSize.toNat := Nat.mul_le_mul_right _ h.lo
  have h3 : (t.start + t.len) * b.blockSize.toNat ≤ b.count * b.blockSize.toNat := Nat.mul_le_mul_right _ h.hi
  have h4 := b.count_mul_le
  have h5 := h.end_le hwf
  have h6 := h.ptr
  omega

theorem holds (h : Placed b x t) (hwf : b.WF) (hpos : 0 < x.size.toNat) : b.Holds x.ptr := by
  have hb := h.bounds hwf
  rw [Memblock.base] at hb
  constructor <;> omega

/-- The pointer determines the first block. -/
theorem start_eq (hx : Placed b x s) (hy : Placed b y t) (hwf : b.WF) (h : x.ptr = y.ptr) : s.start = t.start := by
  have h1 := hx.ptr
  rw [h, hy.ptr] at h1
  exact (Nat.eq_of_mul_eq_mul_right hwf.blockPos (by omega)).symm

/-- Runs with no block in common have no byte in common. -/
theorem apart (hx : Placed b x s) (hy : Placed b y t) (hwf : b.WF)
    (h : s.start + s.len ≤ t.start ∨ t.start + t.len ≤ s.start) : x.Apart y := by
  have hxe := hx.end_le hwf
  have hye := hy.end_le hwf
  have hxp := hx.ptr
  have hyp := hy.ptr
  rcases h with h | h
  · have := Nat.mul_le_mul_right b.blockSize.toNat h
    exact Or.inl (by omega)
  · have := Nat.mul_le_mul_right b.blockSize.toNat h
    exact Or.inr (by omega)

/-- `used` plays no part. -/
theorem of_used {u : UInt32} (h : Placed b x t) : Placed { b with used := u } x t := ⟨h.len, h.ptr, h.lo, h.hi⟩

end Placed

/-- The runs of blocks the live allocations occupy in `b`. -/
def segsOf (b : Memblock) (live : List Alloc) : Set Seg := {t | ∃ x ∈ live, Placed b x t}

/-- The superblocks have no byte in common. -/
def Memblock.Apart (b c : Memblock) : Prop :=
  b.addr.toNat + 20 + b.totalSize.toNat ≤ c.addr.toNat ∨ c.addr.toNat + 20 + c.totalSize.toNat ≤ b.addr.toNat

/-- The superblocks of disjoint regions. -/
theorem superblockOf_apart {addr addr' size size' blockSize blockSize' : UInt32}
    (hroom : 20 + blockSize.toNat ≤ size.toNat) (hroom' : 20 + blockSize'.toNat ≤ size'.toNat)
    (h : addr.toNat + size.toNat ≤ addr'.toNat ∨ addr'.toNat + size'.toNat ≤ addr.toNat) :
    (superblockOf addr size blockSize).Apart (superblockOf addr' size' blockSize') := by
  rw [Memblock.Apart, toNat_totalSize_superblockOf hroom, toNat_totalSize_superblockOf hroom']
  change addr.toNat + 20 + (size.toNat - 20) ≤ addr'.toNat ∨ addr'.toNat + 20 + (size'.toNat - 20) ≤ addr.toNat
  omega

theorem Memblock.Apart.not_inBitmap {b c : Memblock} (h : b.Apart c) (hb : b.WF) (hc : c.WF) {a : UInt32}
    (ha : b.InBitmap a) : ¬ c.InBitmap a := by
  have h1 := hb.count_add_le
  have h2 := hc.count_add_le
  have h3 := hb.blockPos
  have h4 := hc.blockPos
  rw [Memblock.InBitmap, Memblock.base] at ha ⊢
  rw [Memblock.Apart] at h
  omega

theorem Memblock.Apart.not_holds {b c : Memblock} (h : b.Apart c) {p : UInt32} (hp : b.Holds p) : ¬ c.Holds p := by
  rw [Memblock.Apart] at h
  rw [Memblock.Holds] at hp ⊢
  omega

/-! ### The invariant -/

/-- `b` is the superblock `c`, whatever its `used`. -/
def Memblock.Like (b c : Memblock) : Prop := b = { c with used := b.used }

namespace Memblock.Like

variable {b c : Memblock}

/-- Placement does not depend on `used`. -/
theorem placed_iff (h : b.Like c) {x : Alloc} {t : Seg} : Placed b x t ↔ Placed c x t := by
  rw [h]
  exact ⟨fun hx => hx.of_used, fun hx => hx.of_used⟩

theorem holds_iff (h : b.Like c) {p : UInt32} : b.Holds p ↔ c.Holds p := by
  rw [h]
  rfl

theorem inBitmap_iff (h : b.Like c) {a : UInt32} : b.InBitmap a ↔ c.InBitmap a := by
  rw [h]
  rfl

theorem below_iff (h : b.Like c) : b.Below ↔ c.Below := by
  rw [h]
  rfl

theorem count_eq (h : b.Like c) : b.count = c.count := by
  rw [h]
  rfl

theorem reserved_eq (h : b.Like c) : b.reserved = c.reserved := by
  rw [h]
  rfl

theorem apart {d e : Memblock} (h : b.Like c) (h' : d.Like e) (hce : c.Apart e) : b.Apart d := by
  rw [h, h']
  exact hce

/-- Another counter. -/
theorem used (h : b.Like c) (u : UInt32) : Memblock.Like { b with used := u } c := by
  rw [h]
  rfl

end Memblock.Like

/-- **The invariant of a list of superblocks.** -/
structure Superblocks (sites : List Memblock) (m : Mem) (heap : MemHeap) (held : List Alloc) : Prop where
  /-- The sites have room for a block, -/
  wf : ∀ c ∈ sites, c.WF
  /-- and are disjoint. -/
  apart : sites.Pairwise Memblock.Apart
  /-- The superblocks are among them. -/
  blocks : ∀ b ∈ heap, ∃ c ∈ sites, b.Like c
  /-- None occurs twice. -/
  nodup : (heap.map (·.addr)).Nodup
  /-- Each encodes the allocations placed in it. -/
  inv : ∀ b ∈ heap, BlockInv m b (segsOf b held)
  /-- Every allocation is placed in a site, in the list or not. -/
  placed : ∀ x ∈ held, 0 < x.size.toNat ∧ ∃ c ∈ sites, ∃ t, Placed c x t
  /-- Allocations are disjoint. -/
  disjoint : held.Pairwise Alloc.Apart

instance : Std.Symm Memblock.Apart := ⟨fun _ _ => Or.symm⟩

namespace Superblocks

variable {sites : List Memblock} {m m' : Mem} {heap heap' : MemHeap} {held : List Alloc}

theorem empty (m : Mem) : Superblocks [] m [] [] :=
  ⟨by simp, List.Pairwise.nil, by simp, List.nodup_nil, by simp, by simp, List.Pairwise.nil⟩

/-- Sites that hold the same pointer are the same. -/
theorem site_eq (h : Superblocks sites m heap held) {c d : Memblock} (hc : c ∈ sites) (hd : d ∈ sites) {p : UInt32}
    (hcp : c.Holds p) (hdp : d.Holds p) : c = d := by
  by_contra hne
  exact (h.apart.forall hc hd hne).not_holds hcp hdp

/-- Different superblocks of the list are apart. -/
theorem block_apart (h : Superblocks sites m heap held) {b c : Memblock} (hb : b ∈ heap) (hc : c ∈ heap) (hne : b ≠ c) :
    b.Apart c := by
  obtain ⟨d, hd, hbd⟩ := h.blocks b hb
  obtain ⟨e, he, hce⟩ := h.blocks c hc
  have hde : d ≠ e := by
    rintro rfl
    apply hne
    apply List.inj_on_of_nodup_map h.nodup hb hc
    rw [hbd, hce]
  exact hbd.apart hce (h.apart.forall hd he hde)

/-- An allocation placed in a superblock of the list is not placed in another. -/
theorem not_placed (h : Superblocks sites m heap held) {b c : Memblock} (hb : b ∈ heap) (hc : c ∈ heap) (hne : b ≠ c)
    {x : Alloc} (hpos : 0 < x.size.toNat) {t u : Seg} (hx : Placed b x t) : ¬ Placed c x u := fun hx' =>
  (h.block_apart hb hc hne).not_holds (hx.holds (h.inv b hb).wf hpos) (hx'.holds (h.inv c hc).wf hpos)

/-- The site of an allocation placed in a superblock of the list is that of the superblock. -/
theorem site_of_holds (h : Superblocks sites m heap held) {b c : Memblock} (hb : b ∈ heap) (hc : c ∈ sites) {x : Alloc}
    {t : Seg} (hpos : 0 < x.size.toNat) (hx : Placed c x t) (hbx : b.Holds x.ptr) : b.Like c := by
  obtain ⟨d, hd, hbd⟩ := h.blocks b hb
  rw [h.site_eq hc hd (hx.holds (h.wf c hc) hpos) (hbd.holds_iff.mp hbx)]
  exact hbd

/-- Nothing outside the bitmaps of the list matters. -/
theorem congr (h : Superblocks sites m heap held) (heq : ∀ b ∈ heap, ∀ a, b.InBitmap a → m' a = m a) :
    Superblocks sites m' heap held :=
  ⟨h.wf, h.apart, h.blocks, h.nodup, fun b hb => (h.inv b hb).congr (heq b hb), h.placed, h.disjoint⟩

/-- A byte of an allocation is in no bitmap. -/
theorem not_inBitmap_of_covers (h : Superblocks sites m heap held) {x : Alloc} (hx : x ∈ held) {a : UInt32}
    (ha : x.Covers a) {c : Memblock} (hc : c ∈ sites) : ¬ c.InBitmap a := by
  obtain ⟨hpos, d, hd, t, hxt⟩ := h.placed x hx
  have hb := hxt.bounds (h.wf d hd)
  by_cases hcd : c = d
  · subst hcd
    rw [Alloc.Covers] at ha
    rw [Memblock.InBitmap]
    omega
  · have hap := h.apart.forall hc hd hcd
    have hroom := (h.wf c hc).count_add_le
    have hpos' := (h.wf c hc).blockPos
    rw [Memblock.base] at hb
    rw [Alloc.Covers] at ha
    rw [Memblock.Apart] at hap
    rw [Memblock.InBitmap, Memblock.base]
    omega

/-- A user writes a byte of an allocation. -/
theorem write (h : Superblocks sites m heap held) {x : Alloc} (hx : x ∈ held) {a : UInt32}
    (ha : x.Covers a) (v : UInt8) :
    Superblocks sites (m.set a v) heap held := by
  refine h.congr fun b hb a' ha' => Mem.set_of_ne _ _ ?_
  rintro rfl
  obtain ⟨c, hc, hbc⟩ := h.blocks b hb
  exact h.not_inBitmap_of_covers hx ha hc (hbc.inBitmap_iff.mp ha')

/-! ### Adding -/

/-- A superblock becomes a site. -/
theorem addSite (h : Superblocks sites m heap held) {c : Memblock} (hwf : c.WF) (hc : ∀ d ∈ sites, c.Apart d)
    (hframe : ∀ a, ¬ c.InBitmap a → m' a = m a) : Superblocks (c :: sites) m' heap held := by
  have hblocks : ∀ b ∈ heap, ∃ d ∈ sites, b.Like d := h.blocks
  refine ⟨?_, List.pairwise_cons.mpr ⟨hc, h.apart⟩, fun b hb => ?_, h.nodup, fun b hb => ?_, fun x hx => ?_, h.disjoint⟩
  · exact List.forall_mem_cons.mpr ⟨hwf, h.wf⟩
  · obtain ⟨d, hd, hbd⟩ := hblocks b hb
    exact ⟨d, List.mem_cons_of_mem c hd, hbd⟩
  · -- the superblocks of the list are untouched
    obtain ⟨d, hd, hbd⟩ := hblocks b hb
    refine (h.inv b hb).congr fun a ha => hframe a fun ha' => ?_
    exact (hc d hd).not_inBitmap hwf (h.wf d hd) ha' (hbd.inBitmap_iff.mp ha)
  · obtain ⟨hpos, d, hd, t, hxt⟩ := h.placed x hx
    exact ⟨hpos, d, List.mem_cons_of_mem c hd, t, hxt⟩

/-- Nothing is placed in a site that is new. -/
theorem segsOf_eq_empty (h : Superblocks sites m heap held) {c : Memblock} (hwf : c.WF) (hc : ∀ d ∈ sites, c.Apart d) :
    segsOf c held = ∅ := by
  rw [Set.eq_empty_iff_forall_notMem]
  rintro t ⟨x, hx, hxt⟩
  obtain ⟨hpos, d, hd, u, hxu⟩ := h.placed x hx
  exact (hc d hd).not_holds (hxt.holds hwf hpos) (hxu.holds (h.wf d hd) hpos)

/-- A superblock without allocations is put at the head of the list. -/
theorem add (h : Superblocks sites m heap held) {c : Memblock} (hinv : BlockInv m' c ∅) (hc : ∀ d ∈ sites, c.Apart d)
    (hframe : ∀ a, ¬ c.InBitmap a → m' a = m a) : Superblocks (c :: sites) m' (c :: heap) held := by
  have hsite := h.addSite hinv.wf hc hframe
  refine ⟨hsite.wf, hsite.apart, ?_, ?_, ?_, hsite.placed, hsite.disjoint⟩
  · exact List.forall_mem_cons.mpr ⟨⟨c, List.mem_cons_self, rfl⟩, hsite.blocks⟩
  · rw [List.map_cons, List.nodup_cons]
    refine ⟨fun hmem => ?_, h.nodup⟩
    obtain ⟨b, hb, haddr⟩ := List.mem_map.mp hmem
    obtain ⟨d, hd, hbd⟩ := h.blocks b hb
    have hap := hc d hd
    have haddr' : d.addr = c.addr := by
      rw [hbd] at haddr
      exact haddr
    rw [Memblock.Apart, haddr'] at hap
    omega
  · refine List.forall_mem_cons.mpr ⟨?_, hsite.inv⟩
    rw [h.segsOf_eq_empty hinv.wf hc]
    exact hinv

/-- **`memheap_add_block`**: a superblock at address `0` becomes a site, but ends the list. -/
theorem addBlock (h : Superblocks sites m heap held) {addr size blockSize : UInt32}
    (hwf : (superblockOf addr size blockSize).WF) (hc : ∀ d ∈ sites, (superblockOf addr size blockSize).Apart d) :
    Superblocks (superblockOf addr size blockSize :: sites) (memheapAddBlock m heap addr size blockSize).1
      (memheapAddBlock m heap addr size blockSize).2 held := by
  have hheap : (memheapAddBlock m heap addr size blockSize).2 =
      if addr = 0 then [] else superblockOf addr size blockSize :: heap := rfl
  have hframe : ∀ a, ¬ (superblockOf addr size blockSize).InBitmap a →
    (memheapAddBlock m heap addr size blockSize).1 a = m a :=
    fun a ha => memheapAddBlock_frame hwf m heap ha
  rw [hheap]
  split_ifs with hzero
  · have hsite := h.addSite hwf hc hframe
    exact ⟨hsite.wf, hsite.apart, by simp, by simp, by simp, hsite.placed, hsite.disjoint⟩
  · exact h.add (memheapAddBlock_inv hwf m heap) hc hframe

end Superblocks

/-! ### Working in one superblock -/

/-- Which superblock `memheap_alloc` takes: the first that serves the request. -/
theorem memheapAlloc_eq_some {m m' : Mem} {size p : UInt32} {heap heap' : MemHeap}
    (h : memheapAlloc m size heap = some (p, m', heap')) :
    ∃ pre b b' post, heap = pre ++ b :: post ∧ heap' = pre ++ b' :: post ∧
      allocIn m size b = some (p, m', b') ∧ ∀ c ∈ pre, allocIn m size c = none := by
  induction heap generalizing heap' with
  | nil => simp [memheapAlloc] at h
  | cons b rest ih =>
    rw [memheapAlloc] at h
    split at h
    · next q mem b' heq =>
      simp only [Option.some.injEq, Prod.mk.injEq] at h
      obtain ⟨rfl, rfl, rfl⟩ := h
      exact ⟨[], b, b', rest, rfl, rfl, heq, by simp⟩
    · next heq =>
      rw [Option.map_eq_some_iff] at h
      obtain ⟨⟨q, mem, rest'⟩, hrest, h⟩ := h
      simp only [Prod.mk.injEq] at h
      obtain ⟨rfl, rfl, rfl⟩ := h
      obtain ⟨pre, c, c', post, rfl, rfl, hc, hpre⟩ := ih hrest
      refine ⟨b :: pre, c, c', post, rfl, rfl, hc, ?_⟩
      rintro d (_ | ⟨_, hd⟩)
      exacts [heq, hpre d hd]

/-- Replace a superblock by one that differs in `used`. -/
theorem nodup_replace {pre post : MemHeap} {b b' : Memblock} (haddr : b'.addr = b.addr)
    (h : ((pre ++ b :: post).map (·.addr)).Nodup) : ((pre ++ b' :: post).map (·.addr)).Nodup := by
  rw [List.map_append, List.map_cons] at h ⊢
  rwa [haddr]

theorem mem_replace_iff {pre post : MemHeap} {b b' c : Memblock} (h : ((pre ++ b :: post).map (·.addr)).Nodup) :
    c ∈ pre ++ b' :: post ↔ c = b' ∨ c ∈ pre ++ b :: post ∧ c ≠ b := by
  have hnodup := List.Nodup.of_map _ h
  have hpre : b ∉ pre := fun hb => (List.nodup_append.mp hnodup).2.2 b hb b List.mem_cons_self rfl
  have hpost : b ∉ post := (List.nodup_cons.mp (List.nodup_append.mp hnodup).2.1).1
  simp only [List.mem_append, List.mem_cons]
  constructor
  · rintro (hc | rfl | hc)
    · exact Or.inr ⟨Or.inl hc, fun he => hpre (he ▸ hc)⟩
    · exact Or.inl rfl
    · exact Or.inr ⟨Or.inr (Or.inr hc), fun he => hpost (he ▸ hc)⟩
  · rintro (rfl | ⟨hc | rfl | hc, hne⟩)
    · exact Or.inr (Or.inl rfl)
    · exact Or.inl hc
    · exact absurd rfl hne
    · exact Or.inr (Or.inr hc)

/-- Every superblock of the list is still there, but for `used`. -/
theorem like_replace {pre post : MemHeap} {b b' c d : Memblock} {u : UInt32} (hb' : b' = { b with used := u })
    (hc : c ∈ pre ++ b :: post) (hcd : c.Like d) : ∃ e ∈ pre ++ b' :: post, e.Like d := by
  rcases List.mem_append.mp hc with hc | hc
  · exact ⟨c, by simp [hc], hcd⟩
  · rcases List.mem_cons.mp hc with rfl | hc
    · exact ⟨b', by simp, by rw [hb']; exact hcd.used u⟩
    · exact ⟨c, by simp [hc], hcd⟩

theorem Claimed.placed {m m' : Mem} {b b' : Memblock} {size p : UInt32} {t : Seg}
    (hc : Claimed m b size p m' b' t) : Placed b ⟨p, size⟩ t :=
  ⟨hc.len, hc.ptr, hc.lo, hc.hi⟩

/-- The runs placed in a superblock after one more allocation in it. -/
theorem segsOf_cons {b : Memblock} {x : Alloc} {t : Seg} {live : List Alloc} (hwf : b.WF) (hx : Placed b x t) :
    segsOf b (x :: live) = insert t (segsOf b live) := by
  ext u
  constructor
  · rintro ⟨y, hy, hyu⟩
    rcases List.mem_cons.mp hy with rfl | hy
    · left
      ext
      · exact hyu.start_eq hx hwf rfl
      · rw [hyu.len, hx.len]
    · exact Or.inr ⟨y, hy, hyu⟩
  · rintro (rfl | ⟨y, hy, hyu⟩)
    · exact ⟨x, List.mem_cons_self, hx⟩
    · exact ⟨y, List.mem_cons_of_mem x hy, hyu⟩

namespace Superblocks

variable {sites : List Memblock} {m m' : Mem} {heap heap' : MemHeap} {held : List Alloc}

/-- What the invariant needs of an operation that works in one superblock `b` of the list:
it becomes `b'`, with the segments of the new allocations, and nothing outside its bitmap
changes. -/
theorem replace (h : Superblocks sites m heap held) {pre post : MemHeap} {b b' : Memblock} {u : UInt32}
    {held' : List Alloc} (hheap : heap = pre ++ b :: post) (hb' : b' = { b with used := u })
    (hframe : ∀ a, ¬ b.InBitmap a → m' a = m a) (hinv : BlockInv m' b' (segsOf b held'))
    (hother : ∀ c ∈ heap, c ≠ b → segsOf c held' = segsOf c held)
    (hplaced : ∀ x ∈ held', 0 < x.size.toNat ∧ ∃ c ∈ sites, ∃ t, Placed c x t)
    (hdisjoint : held'.Pairwise Alloc.Apart) :
    Superblocks sites m' (pre ++ b' :: post) held' := by
  have hb : b ∈ heap := by rw [hheap]; simp
  have hnodup := h.nodup
  rw [hheap] at hnodup
  have hmem : ∀ c ∈ pre ++ b' :: post, c = b' ∨ c ∈ heap ∧ c ≠ b := fun c hc => by
    rw [hheap]
    exact (mem_replace_iff hnodup).mp hc
  refine ⟨h.wf, h.apart, ?_, nodup_replace (by rw [hb']) hnodup, ?_, hplaced, hdisjoint⟩
  · intro c hc
    rcases hmem c hc with rfl | ⟨hc', -⟩
    · obtain ⟨d, hd, hbd⟩ := h.blocks b hb
      exact ⟨d, hd, by rw [hb']; exact hbd.used u⟩
    · exact h.blocks c hc'
  · intro c hc
    rcases hmem c hc with rfl | ⟨hc', hne⟩
    · rw [hb'] at hinv ⊢
      have heq : segsOf { b with used := u } held' = segsOf b held' := by
        ext t
        exact ⟨fun ⟨x, hx, hxt⟩ => ⟨x, hx, hxt.of_used⟩, fun ⟨x, hx, hxt⟩ => ⟨x, hx, hxt.of_used⟩⟩
      rw [heq]
      exact hinv
    · rw [hother c hc' hne]
      refine (h.inv c hc').congr fun a ha => hframe a ?_
      exact (h.block_apart hc' hb hne).not_inBitmap (h.inv c hc').wf (h.inv b hb).wf ha

/-! ### Allocating -/

/-- A new allocation is apart from those there are. -/
theorem apart_of_claimed (h : Superblocks sites m heap held) {b b' : Memblock} (hb : b ∈ heap)
    {size p : UInt32} {t : Seg} (hc : Claimed m b size p m' b' t) : ∀ y ∈ held, Alloc.Apart ⟨p, size⟩ y := by
  intro y hy
  obtain ⟨hpos, c, hcmem, u, hyu⟩ := h.placed y hy
  obtain ⟨d, hd, hbd⟩ := h.blocks b hb
  have hwf := (h.inv b hb).wf
  have hx := hc.placed
  by_cases hcd : c = d
  · -- in the same superblock: one run was in use, the other free
    subst hcd
    have hyb : Placed b y u := hbd.placed_iff.mpr hyu
    have hu : u ∈ segsOf b held := ⟨y, hy, hyb⟩
    refine hx.apart hyb hwf ?_
    have hulen := (h.inv b hb).tiles.pos u hu
    have htlen := hc.pos
    by_contra hno
    have hk : max t.start u.start ∈ u := by rw [Seg.mem_iff]; omega
    have hk' : max t.start u.start ∈ t := by rw [Seg.mem_iff]; omega
    exact (h.inv b hb).tiles.not_mem_of_free hu hc.free hk hk'
  · have hap := h.apart.forall hcmem hd hcd
    have h1 := hyu.bounds (h.wf c hcmem)
    have h2 := (hbd.placed_iff.mp hx).bounds (h.wf d hd)
    rw [Memblock.base] at h1 h2
    rw [Memblock.Apart] at hap
    rw [Alloc.Apart]
    omega

theorem alloc (h : Superblocks sites m heap held) {size p : UInt32} (hsize : 0 < size.toNat)
    (ha : memheapAlloc m size heap = some (p, m', heap')) : Superblocks sites m' heap' (⟨p, size⟩ :: held) := by
  obtain ⟨pre, b, b', post, hheap, rfl, hin, -⟩ := memheapAlloc_eq_some ha
  have hb : b ∈ heap := by rw [hheap]; simp
  obtain ⟨t, hc⟩ := (h.inv b hb).claimed hsize hin
  have hwf := (h.inv b hb).wf
  refine h.replace hheap hc.header hc.frame ?_ ?_ ?_ (List.pairwise_cons.mpr ⟨h.apart_of_claimed hb hc, h.disjoint⟩)
  · rw [segsOf_cons hwf hc.placed]
    exact hc.inv (h.inv b hb)
  · intro c hcmem hne
    ext u
    constructor
    · rintro ⟨y, hy, hyu⟩
      rcases List.mem_cons.mp hy with rfl | hy
      · exact absurd hyu (h.not_placed hb hcmem (Ne.symm hne) hsize hc.placed)
      · exact ⟨y, hy, hyu⟩
    · rintro ⟨y, hy, hyu⟩
      exact ⟨y, List.mem_cons_of_mem _ hy, hyu⟩
  · refine List.forall_mem_cons.mpr ⟨?_, h.placed⟩
    obtain ⟨d, hd, hbd⟩ := h.blocks b hb
    exact ⟨hsize, d, hd, t, hbd.placed_iff.mp hc.placed⟩

end Superblocks

/-! ### Freeing -/

theorem memheapFree_of_not_holds {m : Mem} {p : UInt32} {heap : MemHeap}
    (h : ∀ b ∈ heap, b.WF ∧ ¬ b.Holds p) : memheapFree m p heap = (m, heap) := by
  induction heap with
  | nil => rfl
  | cons b rest ih =>
    obtain ⟨hwf, hp⟩ := h b List.mem_cons_self
    rw [memheapFree, freeIn_of_not_holds hwf hp]
    simp only [ih fun c hc => h c (List.mem_cons_of_mem b hc)]

/-- `memheap_free` works in the superblock that holds the pointer. -/
theorem memheapFree_append {m : Mem} {p : UInt32} {pre post : MemHeap} {b : Memblock}
    (hpre : ∀ c ∈ pre, c.WF ∧ ¬ c.Holds p) (hpost : ∀ c ∈ post, c.WF ∧ ¬ c.Holds p) :
    memheapFree m p (pre ++ b :: post) = ((freeIn m p b).1, pre ++ (freeIn m p b).2 :: post) := by
  induction pre with
  | nil => simp only [List.nil_append, memheapFree, memheapFree_of_not_holds hpost]
  | cons c pre ih =>
    obtain ⟨hwf, hp⟩ := hpre c List.mem_cons_self
    rw [List.cons_append, memheapFree, freeIn_of_not_holds hwf hp]
    simp only [ih fun d hd => hpre d (List.mem_cons_of_mem c hd), List.cons_append]

namespace Superblocks

variable {sites : List Memblock} {m m' : Mem} {heap heap' : MemHeap} {held : List Alloc}

/-- The other superblocks of the list do not hold the pointer. -/
theorem not_holds_of_ne (h : Superblocks sites m heap held) {b c : Memblock} (hb : b ∈ heap)
    (hc : c ∈ heap) (hne : c ≠ b) {p : UInt32} (hp : b.Holds p) : c.WF ∧ ¬ c.Holds p :=
  ⟨(h.inv c hc).wf, (h.block_apart hb hc (Ne.symm hne)).not_holds hp⟩

/-- Nor do those before it and behind it. -/
theorem others_not_holds (h : Superblocks sites m heap held) {pre post : MemHeap} {b : Memblock}
    (hheap : heap = pre ++ b :: post)
    {p : UInt32} (hp : b.Holds p) : (∀ c ∈ pre, c.WF ∧ ¬ c.Holds p) ∧ ∀ c ∈ post, c.WF ∧ ¬ c.Holds p := by
  have hb : b ∈ heap := by rw [hheap]; simp
  have hnodup := List.Nodup.of_map _ h.nodup
  rw [hheap] at hnodup
  have hne : ∀ c, c ∈ pre ∨ c ∈ post → c.WF ∧ ¬ c.Holds p := fun c hc => by
    have hcheap : c ∈ heap := by rw [hheap]; simp only [List.mem_append, List.mem_cons]; tauto
    refine h.not_holds_of_ne hb hcheap (fun he => ?_) hp
    -- `b` occurs once
    subst he
    rcases hc with hc | hc
    · exact (List.nodup_append.mp hnodup).2.2 c hc c List.mem_cons_self rfl
    · exact (List.nodup_cons.mp (List.nodup_append.mp hnodup).2.1).1 hc
  exact ⟨fun c hc => hne c (Or.inl hc), fun c hc => hne c (Or.inr hc)⟩

/-- **`memheap_free` works in the superblock of the list that holds the pointer.** -/
theorem memheapFree_at (h : Superblocks sites m heap held) {pre post : MemHeap} {b : Memblock}
    (hheap : heap = pre ++ b :: post)
    {p : UInt32} (hp : b.Holds p) : memheapFree m p heap = ((freeIn m p b).1, pre ++ (freeIn m p b).2 :: post) := by
  obtain ⟨hpre, hpost⟩ := h.others_not_holds hheap hp
  rw [hheap]
  exact memheapFree_append hpre hpost

/-- In a superblock that runs to the end of the address space, it frees nothing. -/
theorem memheapFree_of_not_below (h : Superblocks sites m heap held) {b : Memblock} (hb : b ∈ heap) {p : UInt32}
    (hp : b.Holds p) (hend : ¬ b.Below) : memheapFree m p heap = (m, heap) := by
  obtain ⟨pre, post, hheap⟩ := List.append_of_mem hb
  rw [h.memheapFree_at hheap hp, freeIn_of_not_below (h.inv b hb).wf hend, hheap]

/-- The runs placed in a superblock after one is freed. -/
theorem segsOf_filter (h : Superblocks sites m heap held) {b : Memblock} (hb : b ∈ heap) {x : Alloc} {t : Seg}
    (hx : x ∈ held) (hxt : Placed b x t) : segsOf b (held.filter (·.ptr ≠ x.ptr)) = segsOf b held \ {t} := by
  have hwf := (h.inv b hb).wf
  have htiles := (h.inv b hb).tiles
  ext u
  constructor
  · rintro ⟨y, hy, hyu⟩
    rw [List.mem_filter, decide_eq_true_eq] at hy
    refine ⟨⟨y, hy.1, hyu⟩, ?_⟩
    rintro rfl
    apply hy.2
    apply UInt32.toNat_inj.mp
    rw [hyu.ptr, hxt.ptr]
  · rintro ⟨⟨y, hy, hyu⟩, hne⟩
    refine ⟨y, List.mem_filter.mpr ⟨hy, ?_⟩, hyu⟩
    rw [decide_eq_true_eq]
    intro hptr
    have hu : u ∈ segsOf b held := ⟨y, hy, hyu⟩
    have ht : t ∈ segsOf b held := ⟨x, hx, hxt⟩
    apply hne
    refine htiles.eq_of_mem hu ht (htiles.start_mem hu) ?_
    rw [hyu.start_eq hxt hwf hptr]
    exact htiles.start_mem ht

/-- The runs placed in the superblocks that do not hold the pointer stay. -/
theorem segsOf_filter_of_not_holds (h : Superblocks sites m heap held) {c : Memblock} (hc : c ∈ heap) {p : UInt32}
    (hp : ¬ c.Holds p) : segsOf c (held.filter (·.ptr ≠ p)) = segsOf c held := by
  ext u
  constructor
  · rintro ⟨y, hy, hyu⟩
    exact ⟨y, (List.mem_filter.mp hy).1, hyu⟩
  · rintro ⟨y, hy, hyu⟩
    refine ⟨y, List.mem_filter.mpr ⟨hy, ?_⟩, hyu⟩
    rw [decide_eq_true_eq]
    rintro rfl
    exact hp (hyu.holds (h.inv c hc).wf (h.placed y hy).1)

/-- What `memheap_free` of an allocation comes to: it gives back the run of the superblock that holds it, if
that is in the list. -/
theorem free_cases (h : Superblocks sites m heap held) {x : Alloc} (hx : x ∈ held)
    (hlow : ∀ b ∈ heap, b.Holds x.ptr → b.Below) :
    (∃ pre b post t, heap = pre ++ b :: post ∧ Placed b x t ∧ b.Holds x.ptr ∧
      memheapFree m x.ptr heap = ((freeIn m x.ptr b).1, pre ++ (freeIn m x.ptr b).2 :: post) ∧
      Released m b t (freeIn m x.ptr b).1 (freeIn m x.ptr b).2) ∨
    (∀ b ∈ heap, b.WF ∧ ¬ b.Holds x.ptr) ∧ memheapFree m x.ptr heap = (m, heap) := by
  obtain ⟨hpos, c, hc, t, hxt⟩ := h.placed x hx
  by_cases hin : ∃ b ∈ heap, b.Holds x.ptr
  · obtain ⟨b, hb, hbp⟩ := hin
    have hbt : Placed b x t := (h.site_of_holds hb hc hpos hxt hbp).placed_iff.mpr hxt
    obtain ⟨pre, post, hheap⟩ := List.append_of_mem hb
    exact Or.inl ⟨pre, b, post, t, hheap, hbt, hbp, h.memheapFree_at hheap hbp,
      (h.inv b hb).freeIn_eq (hlow b hb hbp) ⟨x, hx, hbt⟩ hbt.ptr⟩
  · have hout : ∀ b ∈ heap, b.WF ∧ ¬ b.Holds x.ptr := fun b hb => ⟨(h.inv b hb).wf, fun hp => hin ⟨b, hb, hp⟩⟩
    exact Or.inr ⟨hout, memheapFree_of_not_holds hout⟩

theorem free (h : Superblocks sites m heap held) {x : Alloc} (hx : x ∈ held)
    (hlow : ∀ b ∈ heap, b.Holds x.ptr → b.Below) :
    Superblocks sites (memheapFree m x.ptr heap).1 (memheapFree m x.ptr heap).2 (held.filter (·.ptr ≠ x.ptr)) := by
  have hplaced : ∀ y ∈ held.filter (·.ptr ≠ x.ptr), 0 < y.size.toNat ∧ ∃ c ∈ sites, ∃ t, Placed c y t :=
    fun y hy => h.placed y (List.mem_filter.mp hy).1
  have hdisjoint := h.disjoint.filter (fun y => decide (y.ptr ≠ x.ptr))
  rcases h.free_cases hx hlow with ⟨pre, b, post, t, hheap, hbt, hbp, heq, hrel⟩ | ⟨hout, heq⟩
  · have hb : b ∈ heap := by rw [hheap]; simp
    rw [heq]
    refine h.replace hheap hrel.header hrel.frame ?_ (fun c hc hne => ?_) hplaced hdisjoint
    · rw [h.segsOf_filter hb hx hbt]
      exact hrel.inv (h.inv b hb) ⟨x, hx, hbt⟩
    · exact h.segsOf_filter_of_not_holds hc (h.not_holds_of_ne hb hc hne hbp).2
  · -- its superblock is not in the list: nothing is freed
    rw [heq]
    refine ⟨h.wf, h.apart, h.blocks, h.nodup, fun b hb => ?_, hplaced, hdisjoint⟩
    rw [h.segsOf_filter_of_not_holds hb (hout b hb).2]
    exact h.inv b hb

/-- Whatever superblock an allocation is in, freeing it keeps what the bitmaps say of the others. -/
theorem free_any (h : Superblocks sites m heap held) {x : Alloc} (hx : x ∈ held) :
    ∃ held', Superblocks sites (memheapFree m x.ptr heap).1 (memheapFree m x.ptr heap).2 held' ∧
      ∀ y ∈ held, y.ptr ≠ x.ptr → y ∈ held' := by
  by_cases hlow : ∀ b ∈ heap, b.Holds x.ptr → b.Below
  · exact ⟨held.filter (·.ptr ≠ x.ptr), h.free hx hlow, fun y hy hne => List.mem_filter.mpr ⟨hy, decide_eq_true hne⟩⟩
  · push Not at hlow
    obtain ⟨b, hb, hbp, hend⟩ := hlow
    rw [h.memheapFree_of_not_below hb hbp hend]
    exact ⟨held, h, fun y hy _ => hy⟩

end Superblocks

end MoltarOS.Mm
